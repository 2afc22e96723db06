import Mathlib.Data.List.Dedup
import Mathlib.Data.List.Flatten
import Mailo.Engine.Reach
import Mailo.Store.Sqlite.Outbox

/-!
# Copies

A queued copy is sent one message at a time. An attempt that fails for now is retried whole, and
what keeps a message already copied from being copied again is the address the server gave its
copy.
-/

namespace Mailo.Engine.Copies

open Domain Library Store

/-- Keep the address a copy was given, beside the message it is a copy of. An address a sync mapped
first stays as it is. -/
def copied (store : Sqlite) (account : AccountId) (source to_ : RemoteRef) : Sqlite :=
  match store.messageByRemote account source with
  | none => store
  | some message =>
    if (store.messageByRemote account to_).isSome then store
    else { store with remoteMap := store.remoteMap.set (account, to_) message }

/-- What the server said of a copy made: what it copied, and where that went, if it says. -/
abbrev Told := RemoteRef × Option RemoteRef

/-- The addresses the server gave are kept. -/
def keep (account : AccountId) (store : Sqlite) (told : Told) : Sqlite :=
  match told.2 with
  | some to_ => copied store account told.1 to_
  | none => store

structure Entry where
  account : AccountId
  messages : List MessageId
  /-- What the copy was addressed to as it was queued. -/
  remotes : List RemoteRef
  folder : String

def Entry.op (entry : Entry) : ProtoOp := .copy entry.remotes entry.folder

/-- The messages a copy from an address is a copy of: those it was chosen for. -/
def Entry.chosen (entry : Entry) (store : Sqlite) (source : RemoteRef) : List MessageId :=
  entry.messages.dedup.filter fun message =>
    match store.addressesNow entry.account message with
    | .ok (.at found) => copiedFrom entry.op found == [source]
    | _ => false

/-- The store, whether the entry is queued, and the messages the server has answered a copy of. -/
structure Copying where
  store : Sqlite
  queued : Bool := true
  made : List MessageId := []

/-- How far an attempt came: what each part answered said, and whether the next was refused for
good. -/
structure Attempt where
  answers : List (RemoteRef → Option RemoteRef)
  refused : Bool

/-- What the server says in the parts answered, in order. -/
def Attempt.told (attempt : Attempt) (sent : ProtoOp) : List Told :=
  ((Split.perMailbox sent).zip attempt.answers).flatMap fun part =>
    (Split.messagesOf part.1).map fun source => (source, part.2 source)

def Attempt.leaves (attempt : Attempt) (sent : ProtoOp) : Bool :=
  attempt.answers.length < (Split.perMailbox sent).length && !attempt.refused

/-- One attempt at the entry, addressed as it is sent. -/
def Entry.step (entry : Entry) (copying : Copying) (attempt : Attempt) : Copying :=
  if copying.queued then
    match own entry.op entry.messages (copying.store.addressesNow entry.account) with
    | .ok (.send sent) =>
      { store := (attempt.told sent).foldl (keep entry.account) copying.store
        queued := attempt.leaves sent
        made := copying.made ++
          (attempt.told sent).flatMap fun told => entry.chosen copying.store told.1 }
    | .ok .wait | .error _ => copying
    | .ok .moot | .ok (.lost _) => { copying with queued := false }
  else copying

/-- The entry is attempted again and again, with no sync in between. -/
def Entry.run (entry : Entry) (copying : Copying) (attempts : List Attempt) : Copying :=
  attempts.foldl entry.step copying

/-- Whether the address of every copy answered can be kept beside its message: the message is held
at the address it is copied from, and the server says an address in the folder, one not known yet
and not said twice. -/
def Entry.keeps (entry : Entry) (store : Sqlite) (told : List Told) : Bool :=
  (told.all fun one => (entry.chosen store one.1).all fun message =>
    store.messages.contains message &&
      store.messageByRemote entry.account one.1 == some message &&
      one.2.any fun to_ => sameFolder (columns to_).mailbox entry.folder &&
        (store.messageByRemote entry.account to_).isNone) &&
  decide (told.filterMap Prod.snd).Nodup

/-- Whether an attempt that leaves a part for later keeps where the parts before it went. -/
def Entry.records (entry : Entry) (copying : Copying) (attempt : Attempt) : Bool :=
  match own entry.op entry.messages (copying.store.addressesNow entry.account) with
  | .ok (.send sent) => !attempt.leaves sent || entry.keeps copying.store (attempt.told sent)
  | _ => true

def Entry.allRecord (entry : Entry) : Copying → List Attempt → Bool
  | _, [] => true
  | copying, attempt :: rest =>
    entry.records copying attempt && entry.allRecord (entry.step copying attempt) rest

/-- A message has an address in a folder, or had one when it was destroyed here. -/
def Held (store : Sqlite) (account : AccountId) (folder : String) (message : MessageId) : Prop :=
  ∃ found, store.addressesNow account message = .ok (.at found) ∧
    found.any fun remote => sameFolder (columns remote).mailbox folder

variable {remotes : List RemoteRef} {sent : ProtoOp} {start : Sqlite}

theorem nodup_pushNew (more : List RemoteRef) (h : remotes.Nodup) :
    (pushNew remotes more).Nodup := by
  unfold pushNew
  induction more generalizing remotes with
  | nil => exact h
  | cons remote more ih =>
    rw [List.foldl_cons]
    split
    · exact ih h
    · rename_i hnew
      have hnew : remote ∉ remotes := by simpa using hnew
      exact ih (List.nodup_append.mpr ⟨h, by simp, fun a ha b hb hab => hnew (by simp_all)⟩)

theorem ownFrom_nodup {op : ProtoOp} {addresses : Lookup} {held waits : Bool}
    {messages : List MessageId} (hnodup : remotes.Nodup)
    (h : ownFrom op addresses remotes held waits messages = .ok (.send sent)) :
    ∃ all, sent = readdress op all ∧ all.Nodup := by
  induction messages generalizing remotes held waits with
  | nil =>
    rw [ownFrom] at h
    split at h
    · cases h
    · split at h
      · cases h
      · cases h
        exact ⟨remotes, rfl, hnodup⟩
  | cons message rest ih =>
    rw [ownFrom] at h
    split at h
    · cases h
    · exact ih hnodup h
    · split at h
      · cases h
      · exact ih hnodup h
    · split at h
      · exact ih hnodup h
      · exact ih (nodup_pushNew _ hnodup) h

theorem zip_fst_sublist {α β : Type} : ∀ (xs : List α) (ys : List β),
    ((xs.zip ys).map Prod.fst).Sublist xs
  | [], _ => by simp
  | x :: xs, [] => by simp
  | x :: xs, y :: ys => by simpa using zip_fst_sublist xs ys

theorem told_nodup {sent : ProtoOp} {all : List RemoteRef} (hsent : Split.remotes sent = some all)
    (hall : all.Nodup) (attempt : Attempt) : ((attempt.told sent).map Prod.fst).Nodup := by
  have hparts : (((Split.perMailbox sent).map Split.messagesOf).flatten).Nodup := by
    rw [Split.messages_perMailbox hsent]
    exact (Grouping.joined_perm ..).nodup_iff.mpr hall
  have htold : (attempt.told sent).map Prod.fst =
      ((((Split.perMailbox sent).zip attempt.answers).map Prod.fst).map
        Split.messagesOf).flatten := by
    simp [Attempt.told, List.flatMap_def, Function.comp_def]
  rw [htold]
  exact hparts.sublist ((zip_fst_sublist _ _).map _).flatten

/-! ## What is kept -/

/-- What stands in a store stands in one after it. -/
structure Grows (store next : Sqlite) : Prop where
  messages : next.messages = store.messages
  destroyed : next.destroyed = store.destroyed
  mapped : ∀ {account remote message}, store.messageByRemote account remote = some message →
    next.messageByRemote account remote = some message

variable {store : Sqlite} {account : AccountId} {folder : String} {message : MessageId}
  {remote : RemoteRef}

theorem Grows.refl (store : Sqlite) : Grows store store := ⟨rfl, rfl, id⟩

theorem grows_keep (account : AccountId) (store : Sqlite) (told : Told) :
    Grows store (keep account store told) := by
  unfold keep copied
  split
  · split
    · exact .refl store
    · split
      · exact .refl store
      · rename_i to_ _ _ _ hnew
        refine ⟨rfl, rfl, fun {other remote found} h => ?_⟩
        rw [Sqlite.messageByRemote, Table.get_set]
        split
        · rename_i heq
          obtain ⟨rfl, rfl⟩ := Prod.mk.inj heq
          simp [h] at hnew
        · exact h
  · exact .refl store

theorem grows_keeps (account : AccountId) (store : Sqlite) (told : List Told) :
    Grows store (told.foldl (keep account) store) := by
  induction told generalizing store with
  | nil => exact .refl store
  | cons one rest ih =>
    have hfirst := grows_keep account store one
    have hrest := ih (keep account store one)
    exact ⟨hrest.messages.trans hfirst.messages, hrest.destroyed.trans hfirst.destroyed,
      fun h => hrest.mapped (hfirst.mapped h)⟩

theorem keep_other {told : Told} (h : told.2 ≠ some remote) :
    (keep account store told).messageByRemote account remote =
      store.messageByRemote account remote := by
  unfold keep copied
  split
  · rename_i to_ hto
    have hne : remote ≠ to_ := fun heq => h (heq ▸ hto)
    split
    · rfl
    · split
      · rfl
      · simp [Sqlite.messageByRemote, hne]
  · rfl

theorem kept_of_mem {told : List Told} {source to_ : RemoteRef} (hmem : (source, some to_) ∈ told)
    (hdistinct : (told.filterMap Prod.snd).Nodup)
    (hsource : store.messageByRemote account source = some message)
    (hnew : store.messageByRemote account to_ = none) :
    (told.foldl (keep account) store).messageByRemote account to_ = some message := by
  induction told generalizing store with
  | nil => cases hmem
  | cons one rest ih =>
    rw [List.foldl_cons]
    rcases List.mem_cons.mp hmem with rfl | hrest
    · apply (grows_keeps account _ rest).mapped
      simp only [keep, copied, hsource, hnew, Option.isSome_none, Bool.false_eq_true, if_false]
      simp [Sqlite.messageByRemote]
    · have hlater : (rest.filterMap Prod.snd).Nodup :=
        hdistinct.sublist (List.Sublist.filterMap _ (List.sublist_cons_self ..))
      refine ih hrest hlater ((grows_keep account store one).mapped hsource) ?_
      rw [keep_other, hnew]
      intro hone
      rw [List.filterMap_cons_some hone] at hdistinct
      exact (List.nodup_cons.mp hdistinct).1 (List.mem_filterMap.mpr ⟨_, hrest, rfl⟩)

theorem mem_addressesOf : remote ∈ store.addressesOf account message ↔
    store.messageByRemote account remote = some message := by
  rw [Sqlite.addressesOf, Sqlite.messageByRemote, ← Table.mem_rows]
  constructor
  · intro h
    obtain ⟨⟨⟨owner, found⟩, id⟩, hrow, rfl⟩ := List.mem_map.mp h
    obtain ⟨hheld, hthis⟩ := List.mem_filter.mp hrow
    obtain ⟨rfl, rfl⟩ : owner = account ∧ id = message := by simpa using hthis
    exact hheld
  · intro h
    exact List.mem_map.mpr ⟨((account, remote), message), List.mem_filter.mpr ⟨h, by simp⟩, rfl⟩

theorem held_of (hheld : store.messages.contains message)
    (hmapped : store.messageByRemote account remote = some message)
    (hfolder : sameFolder (columns remote).mailbox folder) :
    Held store account folder message := by
  have hmem := mem_addressesOf.mpr hmapped
  refine ⟨store.addressesOf account message, ?_, List.any_eq_true.mpr ⟨remote, hmem, hfolder⟩⟩
  obtain ⟨first, rest, hfound⟩ := List.exists_cons_of_ne_nil (List.ne_nil_of_mem hmem)
  simp [Sqlite.addressesNow, hheld, hfound]

theorem Held.grows {next : Sqlite} (h : Held store account folder message)
    (hgrows : Grows store next) : Held next account folder message := by
  obtain ⟨found, hnow, hany⟩ := h
  rw [Sqlite.addressesNow] at hnow
  split at hnow
  · rename_i hheld
    obtain ⟨remote, hremote, hfolder⟩ := List.any_eq_true.mp hany
    have hfound : store.addressesOf account message = found := by
      dsimp only at hnow
      split at hnow
      · cases hnow
      · cases hnow
        rfl
    rw [← hfound] at hremote
    exact held_of (by rw [hgrows.messages]; exact hheld)
      (hgrows.mapped (mem_addressesOf.mp hremote)) hfolder
  · rename_i hgone
    refine ⟨found, ?_, hany⟩
    rw [Sqlite.addressesNow, hgrows.messages, if_neg hgone, Sqlite.destroyedOf, hgrows.destroyed]
    exact hnow

/-! ## What is copied -/

variable {entry : Entry} {copying : Copying} {attempt : Attempt}

/-- A message is copied from one address only, and not where it has one in the folder. -/
theorem chosen_away (h : message ∈ entry.chosen store remote) :
    ¬ Held store entry.account entry.folder message ∧
      ∀ other, message ∈ entry.chosen store other → other = remote := by
  have hchosen := (List.mem_filter.mp h).2
  split at hchosen
  · rename_i found hnow
    have hfrom : copiedFrom entry.op found = [remote] := by simpa using hchosen
    constructor
    · rintro ⟨held, hheld, hany⟩
      obtain rfl : found = held := by simpa [hnow] using hheld
      simp [Entry.op, copiedFrom, hany] at hfrom
    · intro other hother
      have hagain := (List.mem_filter.mp hother).2
      simp only [hnow, hfrom] at hagain
      exact (by simpa using hagain : remote = other).symm
  · cases hchosen

theorem nodup_chosen
    (h : own entry.op entry.messages (store.addressesNow entry.account) = .ok (.send sent))
    (attempt : Attempt) :
    ((attempt.told sent).flatMap fun told => entry.chosen store told.1).Nodup := by
  rw [own] at h
  split at h
  · rename_i hnone
    have hnil : entry.messages = [] := by simpa using hnone
    have hchosen : ∀ source, entry.chosen store source = [] := fun _ => by
      simp [Entry.chosen, hnil]
    rw [List.flatMap_eq_nil_iff.mpr fun told _ => hchosen told.1]
    exact List.nodup_nil
  · obtain ⟨all, rfl, hall⟩ := ownFrom_nodup List.nodup_nil h
    have htold := @told_nodup (readdress entry.op all) all rfl hall attempt
    refine List.nodup_flatMap.mpr ⟨fun told _ => ?_, ?_⟩
    · exact List.Nodup.filter _ (List.nodup_dedup _)
    · refine (List.pairwise_map.mp htold).imp fun {a b} hne => ?_
      exact List.disjoint_left.mpr fun m ha hb => hne ((chosen_away hb).2 _ ha)

/-- What holds of a copy after any number of attempts: no message is copied twice, none that was in
the folder is copied, and while the entry waits all that are copied are in it. -/
structure Once (entry : Entry) (start : Sqlite) (copying : Copying) : Prop where
  nodup : copying.made.Nodup
  away : ∀ m ∈ copying.made, ¬ Held start entry.account entry.folder m
  placed : copying.queued = true →
    ∀ m ∈ copying.made, Held copying.store entry.account entry.folder m
  grown : ∀ m, Held start entry.account entry.folder m →
    Held copying.store entry.account entry.folder m

theorem held_of_keeps {told : List Told} (h : entry.keeps store told)
    (hmem : message ∈ told.flatMap fun one => entry.chosen store one.1) :
    Held (told.foldl (keep entry.account) store) entry.account entry.folder message := by
  obtain ⟨hall, hdistinct⟩ := Bool.and_eq_true_iff.mp h
  obtain ⟨⟨source, said⟩, hone, hchosen⟩ := List.mem_flatMap.mp hmem
  have hkept := List.all_eq_true.mp (List.all_eq_true.mp hall _ hone) _ hchosen
  simp only [Bool.and_eq_true, beq_iff_eq, Option.any_eq_true, Option.isNone_iff_eq_none] at hkept
  obtain ⟨⟨hheld, hsource⟩, to_, rfl, hfolder, hnew⟩ := hkept
  have hgrows := grows_keeps entry.account store told
  exact held_of (by rw [hgrows.messages]; exact hheld)
    (kept_of_mem hone (of_decide_eq_true hdistinct) hsource hnew) hfolder

theorem once_step (h : Once entry start copying) (hrecord : entry.records copying attempt) :
    Once entry start (entry.step copying attempt) := by
  rw [Entry.step]
  split
  · rename_i hqueued
    split
    · rename_i sent hsent
      have hgrows := grows_keeps entry.account copying.store (attempt.told sent)
      have hnew : ∀ m ∈ (attempt.told sent).flatMap fun one => entry.chosen copying.store one.1,
          ¬ Held copying.store entry.account entry.folder m := by
        intro m hm
        obtain ⟨one, -, hchosen⟩ := List.mem_flatMap.mp hm
        exact (chosen_away hchosen).1
      refine ⟨List.nodup_append.mpr ⟨h.nodup, nodup_chosen hsent attempt, ?_⟩, ?_, ?_, ?_⟩
      · rintro a ha b hb rfl
        exact hnew a hb (h.placed hqueued a ha)
      · intro m hm
        rcases List.mem_append.mp hm with hm | hm
        · exact h.away m hm
        · exact fun hstart => hnew m hm (h.grown m hstart)
      · intro hleaves m hm
        rcases List.mem_append.mp hm with hm | hm
        · exact (h.placed hqueued m hm).grows hgrows
        · have hleft : attempt.leaves sent = true := hleaves
          have hkeeps : entry.keeps copying.store (attempt.told sent) := by
            simpa [Entry.records, hsent, hleft] using hrecord
          exact held_of_keeps hkeeps hm
      · exact fun m hm => (h.grown m hm).grows hgrows
    · exact h
    · exact h
    · exact ⟨h.nodup, h.away, fun hno => absurd hno Bool.false_ne_true, h.grown⟩
    · exact ⟨h.nodup, h.away, fun hno => absurd hno Bool.false_ne_true, h.grown⟩
  · exact h

theorem once_run (attempts : List Attempt) (h : Once entry start copying)
    (hrecord : entry.allRecord copying attempts) :
    Once entry start (entry.run copying attempts) := by
  induction attempts generalizing copying with
  | nil => exact h
  | cons attempt rest ih =>
    obtain ⟨hfirst, hrest⟩ := Bool.and_eq_true_iff.mp hrecord
    exact ih (once_step h hfirst) hrest

/-- Where every attempt that leaves a part for later keeps the addresses of the copies answered,
the server answers one copy of a message at most, and none of one that is in the folder. -/
theorem copied_once (entry : Entry) (store : Sqlite) (attempts : List Attempt)
    (h : entry.allRecord { store } attempts) :
    (entry.run { store } attempts).made.Nodup ∧
      ∀ m ∈ (entry.run { store } attempts).made, ¬ Held store entry.account entry.folder m := by
  have hstart : Once entry store { store } :=
    ⟨List.nodup_nil, by simp, by simp, fun _ hm => hm⟩
  have honce := once_run attempts hstart h
  exact ⟨honce.nodup, honce.away⟩

/-- Two messages in the inbox, the copy of both queued. -/
def twoHeld : Sqlite :=
  { Sqlite.empty with
    messages := (Table.empty.set ⟨1⟩ (.plain ⟨1⟩ ⟨1⟩ .inbox)).set ⟨2⟩ (.plain ⟨2⟩ ⟨2⟩ .inbox)
    remoteMap := (Table.empty.set (⟨0⟩, .imap "INBOX" 1 1) ⟨1⟩).set (⟨0⟩, .imap "INBOX" 1 2) ⟨2⟩ }

def copyOfTwo : Entry := ⟨⟨0⟩, [⟨1⟩, ⟨2⟩], [], "Work"⟩

def oneAnswered (said : Option RemoteRef) : Attempt := ⟨[fun _ => said], false⟩

theorem copied_once_said :
    (copyOfTwo.run { store := twoHeld }
      [oneAnswered (some (.imap "Work" 1 7)), oneAnswered none]).made.Nodup ∧
    ∀ m ∈ (copyOfTwo.run { store := twoHeld }
      [oneAnswered (some (.imap "Work" 1 7)), oneAnswered none]).made,
      ¬ Held twoHeld ⟨0⟩ "Work" m :=
  copied_once copyOfTwo twoHeld _ (by decide +kernel)

theorem copied_again : ¬ ∀ attempts : List Attempt,
    (copyOfTwo.run { store := twoHeld } attempts).made.Nodup := by
  intro h
  have htwice := h [oneAnswered none, oneAnswered none]
  revert htwice
  decide +kernel

end Mailo.Engine.Copies
