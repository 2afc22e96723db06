import Mailo.Folders.Plan
import Mailo.Library.Moves

/-!
# Mailboxes in the in-memory store

Every folder is kept under its account and path, and read back in the order of those keys. A
rename takes each folder it touches from its key and puts it under the new one, in that order.
-/

namespace Mailo.Folders

open Domain Library

/-- What a folder is kept under. -/
def Folder.key (folder : Folder) : AccountId × String := (folder.account, folder.path)

/-- The folders kept, each under its own key. -/
structure Kept where
  table : Table (AccountId × String) Folder
  keyed : Table.Keyed Folder.key table

namespace Kept

def empty : Kept := ⟨.empty, fun _ _ h => by cases h⟩

variable (kept : Kept)

/-- An account's rows, in path order. -/
def rowsOf (account : AccountId) : List ((AccountId × String) × Folder) :=
  (kept.table.rows.filter fun row => row.1.1 = account).insertionSort fun a b => a.1.2 ≤ b.1.2

def foldersOf (account : AccountId) : List Folder := (kept.rowsOf account).map Prod.snd

def upsertFolder (folder : Folder) : Kept :=
  ⟨kept.table.set folder.key folder, kept.keyed.set folder⟩

def removeFolder (mailbox : MailboxRef) : Kept :=
  ⟨kept.table.erase (mailbox.account, mailbox.path), kept.keyed.erase _⟩

def moveFolder (old : AccountId × String) (folder : Folder) : Kept :=
  ⟨(kept.table.erase old).set folder.key folder, (kept.keyed.erase old).set folder⟩

def renameFolder (origin : MailboxRef) (target : String) (delimiter : Option Char) : Kept :=
  let moved := (kept.rowsOf origin.account).filterMap fun row =>
    (renamed row.2.path origin.path target delimiter).map fun path => (row.1, row.2.moved path)
  moved.foldl (fun kept row => kept.moveFolder row.1 row.2) kept

/-- A change written; one to labels or messages leaves the folders as they are. -/
def write : FolderChange → Kept
  | .folderUpsert folder => kept.upsertFolder folder
  | .folderRemove mailbox => kept.removeFolder mailbox
  | .folderRename origin target delimiter => kept.renameFolder origin target delimiter
  | .labelUpsert _ | .labelRemove _ | .messageLabel _ _ _ => kept

def writeAll (changes : List FolderChange) : Kept := changes.foldl write kept

def ofAccount (account : AccountId) : List Folder :=
  kept.table.those fun folder => folder.account = account

theorem foldersOf_perm (account : AccountId) :
    (kept.foldersOf account).Perm (kept.ofAccount account) := by
  have hsort := (List.perm_insertionSort (fun a b => a.1.2 ≤ b.1.2)
    (kept.table.rows.filter fun row => row.1.1 = account)).map Prod.snd
  apply hsort.trans
  rw [ofAccount, Table.those, Table.values, List.filter_map]
  apply List.Perm.of_eq
  congr 1
  apply List.filter_congr
  rintro ⟨held, folder⟩ hrow
  have hkey := kept.keyed held folder (Table.mem_rows.mp hrow)
  rw [← hkey]
  rfl

variable {account : AccountId}

theorem rowsOf_key {row : (AccountId × String) × Folder} (h : row ∈ kept.rowsOf account) :
    row.2.key = row.1 := by
  have hrow := (List.mem_filter.mp ((List.mem_insertionSort _).mp h)).1
  exact kept.keyed row.1 row.2 (Table.mem_rows.mp hrow)

theorem inPathOrder_foldersOf (account : AccountId) : InPathOrder (kept.foldersOf account) := by
  have hsorted : (kept.rowsOf account).Pairwise fun a b => a.1.2 ≤ b.1.2 :=
    pairwise_by (fun row : (AccountId × String) × Folder => row.1.2) _
  rw [InPathOrder, foldersOf, List.pairwise_map]
  apply hsorted.imp_of_mem
  intro a b ha hb hle
  rw [← kept.rowsOf_key ha, ← kept.rowsOf_key hb] at hle
  exact hle

theorem mem_foldersOf {folder : Folder} :
    folder ∈ kept.foldersOf account ↔
      kept.table.get folder.key = some folder ∧ folder.account = account := by
  rw [(kept.foldersOf_perm account).mem_iff, ofAccount, Table.mem_those kept.keyed,
    decide_eq_true_eq]

theorem paths_nodup (account : AccountId) :
    ((kept.foldersOf account).map fun folder => folder.path).Nodup := by
  have hkeys := ((kept.foldersOf_perm account).symm.map Folder.key).nodup
    (Table.keys_those_nodup kept.keyed _)
  apply List.Nodup.map_on _ hkeys.of_map
  intro x hx y hy heq
  apply List.inj_on_of_nodup_map hkeys hx hy
  rw [Folder.key, Folder.key, heq, (kept.mem_foldersOf.mp hx).2, (kept.mem_foldersOf.mp hy).2]

end Kept

/-! ## The shown listing and the kept one

Work laid over a listing shows what the store holds once the plan's patch is written: always for
a creation or a deletion, for a rename where no folder is moved onto another, and for following
where the folder is called by its own name.
-/

/-- What a rename makes of a folder. -/
def change (origin target : String) (delimiter : Option Char) (folder : Folder) : Folder :=
  match renamed folder.path origin target delimiter with
  | some path => folder.moved path
  | none => folder

def touched (origin target : String) (delimiter : Option Char) (folder : Folder) : Bool :=
  (renamed folder.path origin target delimiter).isSome

section Rename

variable {origin target : String} {delimiter : Option Char}

variable {folder : Folder}

theorem change_touched {path : String}
    (h : renamed folder.path origin target delimiter = some path) :
    change origin target delimiter folder = folder.moved path := by
  rw [change, h]

theorem change_untouched (h : touched origin target delimiter folder = false) :
    change origin target delimiter folder = folder := by
  rw [touched, Option.isSome_eq_false_iff, Option.isNone_iff_eq_none] at h
  rw [change, h]

theorem account_change (folder : Folder) :
    (change origin target delimiter folder).account = folder.account := by
  unfold change
  split <;> rfl

theorem table_moved {rows : List ((AccountId × String) × Folder)}
    (hkeys : ∀ row ∈ rows, row.2.key = row.1) (kept : Kept) :
    ((rows.filterMap fun row => (renamed row.2.path origin target delimiter).map fun path =>
        (row.1, row.2.moved path)).foldl (fun kept row => kept.moveFolder row.1 row.2) kept).table =
      ((rows.map Prod.snd).filter (touched origin target delimiter)).foldl
        (Table.carry Folder.key (change origin target delimiter)) kept.table := by
  induction rows generalizing kept with
  | nil => rfl
  | cons row rows ih =>
    have hrest := ih fun other hother => hkeys other (.tail _ hother)
    cases h : renamed row.2.path origin target delimiter with
    | none =>
      have hnot : touched origin target delimiter row.2 = false := by
        rw [touched, h]
        rfl
      rw [List.filterMap_cons_none (by rw [h]; rfl), List.map_cons,
        List.filter_cons_of_neg (by simp [hnot])]
      exact hrest kept
    | some path =>
      have hyes : touched origin target delimiter row.2 = true := by
        rw [touched, h]
        rfl
      rw [List.filterMap_cons_some (by rw [h]; rfl), List.map_cons,
        List.filter_cons_of_pos hyes, List.foldl_cons, List.foldl_cons, hrest]
      congr 1
      rw [Table.carry, change_touched h, hkeys row List.mem_cons_self]
      rfl

end Rename

/-! ## What a plan writes -/

theorem steps_ok {α β : Type} {first : Except FolderError α} {next : α → Except FolderError β}
    {result : β} (h : (first >>= next) = .ok result) :
    ∃ value, first = .ok value ∧ next value = .ok result := by
  cases first with
  | error e => cases h
  | ok value => exact ⟨value, rfl, h⟩

theorem writeAll_labels (kept : Kept) {changes : List FolderChange}
    (h : ∀ change ∈ changes, kept.write change = kept) : kept.writeAll changes = kept := by
  induction changes with
  | nil => rfl
  | cons change changes ih =>
    rw [Kept.writeAll, List.foldl_cons, h change List.mem_cons_self, ← Kept.writeAll]
    exact ih fun other hother => h other (.tail _ hother)

theorem writeAll_append (kept : Kept) (changes more : List FolderChange) :
    kept.writeAll (changes ++ more) = (kept.writeAll changes).writeAll more := List.foldl_append

namespace FolderCtx

variable {ctx : FolderCtx} {folder : Folder} {path : String} {changes : Changes}

theorem existing_ok (h : ctx.existing path = .ok folder) :
    ctx.folders.find? (fun folder => same folder.path path) = some folder := by
  unfold existing at h
  split at h
  · rename_i heq
    cases h
    exact heq
  · cases h

theorem path_of_untouchable (h : ctx.existing path = .ok folder)
    (htouch : ctx.untouchable folder = .ok ()) : folder.path = path := by
  have hsame := List.find?_some (existing_ok h)
  have hinbox : isInbox folder.path = false := by
    by_contra hnot
    rw [Bool.not_eq_false] at hnot
    have hguarded : folder.protected? ≠ none := by
      rw [Folder.protected?, hnot]
      cases folder.special <;> exact Option.some_ne_none _
    obtain ⟨special, hspecial⟩ := Option.ne_none_iff_exists'.mp hguarded
    rw [untouchable] at htouch
    simp only [List.findSome?_cons, hspecial, Option.map_some] at htouch
    cases htouch
  simp only [same, hinbox, Bool.false_and, Bool.or_false, decide_eq_true_eq] at hsame
  exact hsame

theorem create_ok {fresh : LabelId} (h : ctx.create fresh path = .ok changes) (kept : Kept) :
    (∀ folder ∈ ctx.folders, same folder.path path = false) ∧
      kept.writeAll changes.forward = kept.upsertFolder (created ctx.account path ctx.folders) := by
  obtain ⟨-, -, h⟩ := steps_ok h
  split at h
  · cases h
  · rename_i hnew
    rw [Bool.or_eq_true, not_or, Bool.not_eq_true, List.any_eq_false] at hnew
    refine ⟨fun folder hfolder => Bool.eq_false_iff.mpr (hnew.1 folder hfolder), ?_⟩
    split at h
    · cases h
      rfl
    · cases h
      rfl

theorem rename_ok {origin target : String} (h : ctx.rename origin target = .ok changes) :
    ∃ folder, ctx.folders.find? (fun folder => same folder.path origin) = some folder ∧
      folder.path = origin ∧
      changes.forward = [.folderRename ⟨ctx.account, origin⟩ target folder.delimiter] := by
  obtain ⟨folder, hfolder, h⟩ := steps_ok h
  obtain ⟨⟨⟩, htouch, h⟩ := steps_ok h
  obtain ⟨-, -, h⟩ := steps_ok h
  have hpath := path_of_untouchable hfolder htouch
  refine ⟨folder, existing_ok hfolder, hpath, ?_⟩
  split at h
  · cases h
  · split at h
    · cases h
    · cases h
      rw [← hpath]
      rfl

theorem delete_ok {nonEmpty : NonEmpty} (h : ctx.delete path nonEmpty = .ok changes)
    (kept : Kept) : kept.writeAll changes.forward = kept.removeFolder ⟨ctx.account, path⟩ := by
  obtain ⟨folder, hfolder, h⟩ := steps_ok h
  obtain ⟨⟨⟩, htouch, h⟩ := steps_ok h
  have hpath := path_of_untouchable hfolder htouch
  split at h
  · cases h
  · split at h
    · cases h
    · dsimp only at h
      split at h
      · cases h
        have hlabels : ∀ label, kept.writeAll
            (ctx.contents.labelled.map (.messageLabel · label .out)) = kept := by
          intro label
          apply writeAll_labels
          intro change hchange
          obtain ⟨message, -, rfl⟩ := List.mem_map.mp hchange
          rfl
        rw [writeAll_append, hlabels, ← hpath]
        rfl
      · cases h
        rw [← hpath]
        rfl

theorem subscribe_ok {subscription : Subscription}
    (h : ctx.subscribe path subscription = .ok changes) :
    ∃ folder, ctx.folders.find? (fun folder => same folder.path path) = some folder ∧
      changes.forward = [.folderUpsert { folder with subscription := subscription }] := by
  obtain ⟨folder, hfolder, h⟩ := steps_ok h
  cases h
  exact ⟨folder, existing_ok hfolder, rfl⟩

end FolderCtx

/-! ## Listing by listing -/

theorem shown_iff (shown : List Folder) (kept : Kept) (account : AccountId) :
    inOrder shown = kept.foldersOf account ↔ shown.Perm (kept.ofAccount account) := by
  have hperm := kept.foldersOf_perm account
  constructor
  · intro heq
    exact ((inOrder_perm shown).symm.trans (List.Perm.of_eq heq)).trans hperm
  · intro h
    have hall := ((inOrder_perm shown).trans h).trans hperm.symm
    have hnodup := (hall.symm.map fun folder => folder.path).nodup (kept.paths_nodup account)
    exact (inPathOrder_inOrder shown).eq_of_perm (kept.inPathOrder_foldersOf account) hnodup hall

theorem same_refl (path : String) : same path path = true := by simp [same]

section Works

variable {kept : Kept} {account : AccountId}

variable {path origin : String} {folder : Folder}

theorem get_none_of_new (hnew : ∀ folder ∈ kept.foldersOf account, same folder.path path = false) :
    kept.table.get (account, path) = none := by
  cases h : kept.table.get (account, path) with
  | none => rfl
  | some folder =>
    have hkey := kept.keyed _ _ h
    obtain ⟨haccount, hpath⟩ := Prod.mk.inj hkey
    have hin : folder ∈ kept.foldersOf account := by
      apply kept.mem_foldersOf.mpr
      rw [hkey]
      exact ⟨h, haccount⟩
    have := hnew folder hin
    rw [hpath, same_refl] at this
    cases this

theorem created_agrees (hnew : ∀ folder ∈ kept.foldersOf account, same folder.path path = false) :
    (laid account (kept.foldersOf account) (.create path)).Perm
      ((kept.upsertFolder (created account path (kept.foldersOf account))).ofAccount account) := by
  have hany : ((kept.foldersOf account).any fun folder => same folder.path path) = false := by
    rw [List.any_eq_false]
    exact fun folder hfolder => Bool.eq_false_iff.mp (hnew folder hfolder)
  have hfree : kept.table.get (created account path (kept.foldersOf account)).key = none :=
    get_none_of_new hnew
  have hset := Table.those_set_new hfree (p := fun folder => folder.account = account)
    (decide_eq_true rfl)
  rw [laid, hany, if_neg Bool.false_ne_true, Kept.ofAccount, Kept.upsertFolder, hset]
  exact (kept.foldersOf_perm account).append_right _

theorem deleted_agrees (path : String) (nonEmpty : NonEmpty) :
    (laid account (kept.foldersOf account) (.delete path nonEmpty)).Perm
      ((kept.removeFolder ⟨account, path⟩).ofAccount account) := by
  rw [Kept.ofAccount, Kept.removeFolder, Table.those_erase kept.keyed, laid]
  apply ((kept.foldersOf_perm account).filter _).trans
  apply List.Perm.of_eq
  apply List.filter_congr
  intro folder hfolder
  have haccount := (kept.mem_foldersOf.mp ((kept.foldersOf_perm account).mem_iff.mpr hfolder)).2
  simp [Folder.key, haccount]

/-- Two rewritings that keep every path list the same folders only where they agree on each. -/
theorem map_perm_iff {folders : List Folder} {f g : Folder → Folder}
    (distinct : (folders.map fun folder => folder.path).Nodup)
    (hf : ∀ folder, (f folder).path = folder.path) (hg : ∀ folder, (g folder).path = folder.path) :
    (folders.map f).Perm (folders.map g) ↔ ∀ folder ∈ folders, f folder = g folder := by
  constructor
  · intro h folder hfolder
    have hin : f folder ∈ folders.map g := h.mem_iff.mp (List.mem_map_of_mem hfolder)
    obtain ⟨other, hother, heq⟩ := List.mem_map.mp hin
    have hpath : other.path = folder.path := by rw [← hg other, heq, hf folder]
    rw [← heq, List.inj_on_of_nodup_map distinct hother hfolder hpath]
  · intro h
    exact List.Perm.of_eq (List.map_congr_left h)

/-- Following a folder shows what is kept where it is called by its own name, or where nothing
that is called so either way changes. -/
theorem followed_agrees {subscription : Subscription} (hfolder : folder ∈ kept.foldersOf account) :
    (laid account (kept.foldersOf account) (.subscribe path subscription)).Perm
      ((kept.upsertFolder { folder with subscription := subscription }).ofAccount account) ↔
    folder.path = path ∨ (folder.subscription = subscription ∧
      ∀ other ∈ kept.foldersOf account, other.path = path → other.subscription = subscription) := by
  have hdistinct := kept.paths_nodup account
  have hall : ∀ other ∈ kept.foldersOf account, other.path = folder.path → other = folder :=
    fun other hother => List.inj_on_of_nodup_map hdistinct hother hfolder
  obtain ⟨hget, haccount⟩ := kept.mem_foldersOf.mp hfolder
  have hheld : kept.table.get (Folder.key { folder with subscription := subscription }) =
      some folder := hget
  have hset := Table.those_set_held kept.keyed hheld
    (p := fun folder => folder.account = account)
    (fun other heq => by rw [show other.account = folder.account from (Prod.mk.inj heq).1])
  have hkept : ((kept.upsertFolder { folder with subscription := subscription }).ofAccount
      account).Perm ((kept.foldersOf account).map fun other =>
        if other.path = folder.path then { folder with subscription := subscription }
        else other) := by
    rw [Kept.ofAccount, Kept.upsertFolder, hset]
    apply ((kept.foldersOf_perm account).symm.map _).trans
    apply List.Perm.of_eq
    apply List.map_congr_left
    intro other hother
    have hsame : other.key = folder.key ↔ other.path = folder.path := by
      rw [Folder.key, Folder.key, (kept.mem_foldersOf.mp hother).2, haccount, Prod.mk.injEq]
      exact and_iff_right rfl
    change (if other.key = folder.key then _ else _) = _
    simp only [hsame]
  have hmap := @map_perm_iff (kept.foldersOf account)
    (fun other => if other.path = path then { other with subscription := subscription } else other)
    (fun other => if other.path = folder.path then { folder with subscription := subscription }
      else other) hdistinct
    (fun other => by split <;> rfl)
    (fun other => by split; · rename_i heq; exact heq.symm
                     · rfl)
  rw [laid]
  refine Iff.trans ⟨fun h => h.trans hkept, fun h => h.trans hkept.symm⟩ (hmap.trans ?_)
  constructor
  · intro hagree
    by_cases hpath : folder.path = path
    · exact Or.inl hpath
    · have hown := hagree folder hfolder
      rw [if_neg hpath, if_pos rfl] at hown
      refine Or.inr ⟨congrArg (·.subscription) hown, ?_⟩
      intro other hother hcalled
      have hthis := hagree other hother
      have hne : other.path ≠ folder.path := fun heq => hpath (heq.symm.trans hcalled)
      rw [if_pos hcalled, if_neg hne] at hthis
      exact (congrArg (·.subscription) hthis).symm
  · rintro (hpath | ⟨hown, hcalled⟩) other hother
    · by_cases heq : other.path = path
      · rw [if_pos heq, if_pos (heq.trans hpath.symm), hall other hother (heq.trans hpath.symm)]
      · rw [if_neg heq, if_neg (fun hsame => heq (hsame.trans hpath))]
    · have hsaid : ∀ one : Folder, one.subscription = subscription →
          { one with subscription := subscription } = one := by
        rintro one rfl
        rfl
      have hleft : (if other.path = path then { other with subscription := subscription }
          else other) = other := by
        split
        · rename_i heq
          exact hsaid other (hcalled other hother heq)
        · rfl
      rw [hleft]
      split
      · rename_i heq
        rw [hsaid folder hown, hall other hother heq]
      · rfl

variable {target : String}

/-- The folders of an account a rename leaves one on another: none takes the path of one that
stays, or that is moved after it. -/
theorem clear_paths {delimiter : Option Char} :
    Table.Clear Folder.key (change origin target delimiter)
      ((kept.foldersOf account).filter fun folder => !touched origin target delimiter folder)
      ((kept.foldersOf account).filter (touched origin target delimiter)) ↔
    ∀ folder ∈ kept.foldersOf account, ∀ other ∈ kept.foldersOf account,
      renamed folder.path origin target delimiter = some other.path →
        touched origin target delimiter other = true ∧ other.path ≤ folder.path := by
  have hdistinct := kept.paths_nodup account
  have haccount : ∀ folder ∈ kept.foldersOf account, folder.account = account :=
    fun folder hfolder => (kept.mem_foldersOf.mp hfolder).2
  have hnew : ∀ folder path, renamed folder.path origin target delimiter = some path →
      (change origin target delimiter folder).key = (folder.account, path) := by
    intro folder path h
    rw [change_touched h]
    rfl
  have hitems : ∀ {folder}, folder ∈ (kept.foldersOf account).filter
      (touched origin target delimiter) → folder ∈ kept.foldersOf account ∧
        ∃ path, renamed folder.path origin target delimiter = some path :=
    fun h => ⟨(List.mem_filter.mp h).1, Option.isSome_iff_exists.mp (List.mem_filter.mp h).2⟩
  have hordered := (kept.inPathOrder_foldersOf account).sublist
    (List.filter_sublist (p := touched origin target delimiter))
  have hapart : ((kept.foldersOf account).filter (touched origin target delimiter)).Pairwise
      fun a b => a.path ≠ b.path :=
    List.pairwise_map.mp (hdistinct.sublist (List.filter_sublist.map _))
  rw [Table.clear_iff]
  · constructor
    · rintro ⟨hrest, hpairs⟩ folder hfolder other hother h
      have hin : folder ∈ (kept.foldersOf account).filter (touched origin target delimiter) :=
        List.mem_filter.mpr ⟨hfolder, by rw [touched, h]; rfl⟩
      have hkey : (change origin target delimiter folder).key = other.key := by
        rw [hnew folder other.path h, haccount folder hfolder, ← haccount other hother]
        rfl
      cases htouched : touched origin target delimiter other with
      | false =>
        have hstays : other ∈ (kept.foldersOf account).filter
            fun folder => !touched origin target delimiter folder :=
          List.mem_filter.mpr ⟨hother, by rw [htouched]; rfl⟩
        exact absurd (hkey ▸ List.mem_map_of_mem hstays) (hrest folder hin)
      | true =>
        refine ⟨rfl, not_lt.mp fun hlt => ?_⟩
        have hbefore : ((kept.foldersOf account).filter
            (touched origin target delimiter)).Pairwise fun a b =>
              a.path < b.path → (change origin target delimiter a).key ≠ b.key := by
          apply hpairs.imp
          intro a b hne _
          exact hne
        have hafter : ((kept.foldersOf account).filter
            (touched origin target delimiter)).Pairwise fun a b =>
              b.path < a.path → (change origin target delimiter b).key ≠ a.key := by
          apply hordered.imp
          intro a b hle hlt
          exact absurd hle (not_le.mpr hlt)
        have hlater := List.Pairwise.forall_of_forall_of_flip
          (fun a _ hlt => absurd hlt (lt_irrefl _)) hbefore hafter
        exact hlater hin (List.mem_filter.mpr ⟨hother, htouched⟩) hlt hkey
    · intro h
      constructor
      · intro folder hfolder hmem
        obtain ⟨hin, path, hpath⟩ := hitems hfolder
        obtain ⟨other, hother, hkey⟩ := List.mem_map.mp hmem
        obtain ⟨hlisted, hstays⟩ := List.mem_filter.mp hother
        rw [hnew folder path hpath] at hkey
        rw [← (Prod.mk.inj hkey).2] at hpath
        rw [(h folder hin other hlisted hpath).1] at hstays
        cases hstays
      · apply (hordered.and hapart).imp_of_mem
        rintro a b ha hb ⟨hle, hne⟩ hkey
        obtain ⟨hin, path, hpath⟩ := hitems ha
        rw [hnew a path hpath] at hkey
        rw [(Prod.mk.inj hkey).2] at hpath
        exact hne (le_antisymm hle (h a hin b (hitems hb).1 hpath).2)
  · apply List.Nodup.map_on _ (hdistinct.of_map.filter _)
    intro x hx y hy heq
    obtain ⟨hxin, path, hpath⟩ := hitems hx
    obtain ⟨hyin, new, hnewPath⟩ := hitems hy
    rw [hnew x path hpath, hnew y new hnewPath] at heq
    rw [(Prod.mk.inj heq).2] at hpath
    exact List.inj_on_of_nodup_map hdistinct hxin hyin (renamed_injective hpath hnewPath)

theorem find_path (hfolder : folder ∈ kept.foldersOf account) (hpath : folder.path = origin) :
    (kept.foldersOf account).find? (fun other => other.path = origin) = some folder := by
  cases h : (kept.foldersOf account).find? fun other => other.path = origin with
  | none => exact absurd (decide_eq_true hpath) (List.find?_eq_none.mp h folder hfolder)
  | some other =>
    have hother := List.find?_some h
    rw [decide_eq_true_eq] at hother
    rw [List.inj_on_of_nodup_map (kept.paths_nodup account) (List.mem_of_find?_eq_some h)
      hfolder (hother.trans hpath.symm)]

theorem renamed_agrees (hfolder : folder ∈ kept.foldersOf account) (hpath : folder.path = origin) :
    (laid account (kept.foldersOf account) (.rename origin target)).Perm
      ((kept.renameFolder ⟨account, origin⟩ target folder.delimiter).ofAccount account) ↔
    ∀ folder' ∈ kept.foldersOf account, ∀ other ∈ kept.foldersOf account,
      renamed folder'.path origin target folder.delimiter = some other.path →
        touched origin target folder.delimiter other = true ∧ other.path ≤ folder'.path := by
  have hlaid : laid account (kept.foldersOf account) (.rename origin target) =
      (kept.foldersOf account).map (change origin target folder.delimiter) := by
    rw [laid, find_path hfolder hpath]
    rfl
  have htable : (kept.renameFolder ⟨account, origin⟩ target folder.delimiter).table =
      ((kept.foldersOf account).filter (touched origin target folder.delimiter)).foldl
        (Table.carry Folder.key (change origin target folder.delimiter)) kept.table :=
    table_moved (fun row hrow => kept.rowsOf_key hrow) kept
  have hsplit : (kept.foldersOf account).Perm
      ((kept.foldersOf account).filter (fun other => !touched origin target folder.delimiter other)
        ++ (kept.foldersOf account).filter (touched origin target folder.delimiter)) :=
    (List.perm_append_comm.trans (List.filter_append_perm _ _)).symm
  have hshown : ((kept.foldersOf account).map (change origin target folder.delimiter)).Perm
      ((kept.foldersOf account).filter (fun other => !touched origin target folder.delimiter other)
        ++ ((kept.foldersOf account).filter (touched origin target folder.delimiter)).map
          (change origin target folder.delimiter)) := by
    apply (hsplit.map _).trans
    rw [List.map_append]
    apply List.Perm.append_right
    apply List.Perm.of_eq
    rw [List.map_congr_left (g := id), List.map_id]
    intro other hother
    have hstays := (List.mem_filter.mp hother).2
    exact change_untouched (by simpa using hstays)
  have hmoved := @Table.those_carryAll _ _ _ Folder.key (change origin target folder.delimiter)
    kept.table (fun folder => folder.account = account)
    (fun a b hkey => by rw [(Prod.mk.inj hkey).1])
    (fun other h => by rw [account_change]; exact h)
    _ _ kept.keyed ((kept.foldersOf_perm account).symm.trans hsplit)
  rw [← clear_paths, ← hmoved, hlaid, Kept.ofAccount, htable]
  exact ⟨fun h => h.symm.trans hshown, fun h => hshown.trans h.symm⟩

end Works

/-- Where the listing shown and the listing kept agree. A rename is to move no folder onto one
that stays, or that is moved after it; a folder followed is to be listed by its own name, or
nothing it could be called by is to change. -/
def Agrees (work : FolderWork) (listing : List Folder) : Prop :=
  match work with
  | .create _ | .delete _ _ => True
  | .rename origin target =>
    ∀ delimiter, (listing.find? fun folder => folder.path = origin).map (·.delimiter) =
        some delimiter →
      ∀ folder ∈ listing, ∀ other ∈ listing,
        renamed folder.path origin target delimiter = some other.path →
          touched origin target delimiter other = true ∧ other.path ≤ folder.path
  | .subscribe path subscription =>
    ∀ folder, listing.find? (fun folder => same folder.path path) = some folder →
      folder.path = path ∨ (folder.subscription = subscription ∧
        ∀ other ∈ listing, other.path = path → other.subscription = subscription)

/-- What a plan accepts, laid over the listing kept, shows what is kept once the plan's patch is
written, exactly where the work agrees with the listing. -/
theorem layered_agrees (kept : Kept) (fresh : LabelId) (work : FolderWork) (ctx : FolderCtx)
    {applied : Applied} (hlisted : ctx.folders = kept.foldersOf ctx.account)
    (h : plan fresh work ctx = .ok applied) :
    layered ctx.account ctx.folders [work] =
        (kept.writeAll applied.changes.forward).foldersOf ctx.account ↔
      Agrees work ctx.folders := by
  have hchanges : ctx.changes fresh work = .ok applied.changes := by
    unfold plan at h
    split at h
    · cases h
    · cases h
    all_goals
      cases hdone : ctx.changes fresh work with
      | error e =>
        rw [hdone] at h
        cases h
      | ok changes =>
        rw [hdone] at h
        cases h
        rfl
  rw [layered, List.foldl_cons, List.foldl_nil, shown_iff, hlisted]
  cases work with
  | create path =>
    obtain ⟨hnew, hwritten⟩ := FolderCtx.create_ok hchanges kept
    rw [hlisted] at hnew hwritten
    rw [hwritten]
    exact iff_of_true (created_agrees hnew) trivial
  | rename origin target =>
    obtain ⟨folder, hfind, hpath, hforward⟩ := FolderCtx.rename_ok hchanges
    rw [hlisted] at hfind
    have hfolder := List.mem_of_find?_eq_some hfind
    have hown : (kept.foldersOf ctx.account).find? (fun other => other.path = origin) =
        some folder := find_path hfolder hpath
    rw [hforward]
    refine (renamed_agrees hfolder hpath).trans ?_
    rw [Agrees, hown, Option.map_some]
    constructor
    · intro hall delimiter hdelimiter
      rw [← Option.some.inj hdelimiter]
      exact hall
    · intro hall
      exact hall folder.delimiter rfl
  | delete path nonEmpty =>
    rw [FolderCtx.delete_ok hchanges kept]
    exact iff_of_true (deleted_agrees path nonEmpty) trivial
  | subscribe path subscription =>
    obtain ⟨folder, hfind, hforward⟩ := FolderCtx.subscribe_ok hchanges
    rw [hlisted] at hfind
    rw [hforward]
    refine (followed_agrees (List.mem_of_find?_eq_some hfind)).trans ?_
    constructor
    · intro hall other hother
      rw [← Option.some.inj (hfind.symm.trans hother)]
      exact hall
    · intro hall
      exact hall folder hfind

def listedAs (path : String) : Folder where
  account := ⟨0⟩
  path := path
  delimiter := some '/'
  special := none
  subscription := .unsubscribed
  holds := .mail

def keptAs (paths : List String) : Kept :=
  .writeAll .empty (paths.map fun path => .folderUpsert (listedAs path))

/-- What a plan reads of such an account. -/
def reads (paths : List String) : FolderCtx where
  account := ⟨0⟩
  incoming := .imap
  caps := ⟨.localOnly, .localOnly, ⟨[]⟩⟩
  folders := (keptAs paths).foldersOf ⟨0⟩
  labels := []
  contents := ⟨[], []⟩

theorem work_becomes_jobs : layered ⟨0⟩ (reads ["Work", "Work/2026", "Workshop"]).folders
      [.rename "Work" "Jobs"] =
    ((keptAs ["Work", "Work/2026", "Workshop"]).writeAll
      [.folderRename ⟨⟨0⟩, "Work"⟩ "Jobs" (some '/')]).foldersOf ⟨0⟩ := by
  have hplan : plan ⟨0⟩ (.rename "Work" "Jobs") (reads ["Work", "Work/2026", "Workshop"]) =
      .ok ⟨⟨[.folderRename ⟨⟨0⟩, "Work"⟩ "Jobs" (some '/')],
        [.folderRename ⟨⟨0⟩, "Jobs"⟩ "Work" (some '/')]⟩, .rename "Work" "Jobs"⟩ := by
    decide +kernel
  apply (layered_agrees (keptAs ["Work", "Work/2026", "Workshop"]) ⟨0⟩ _ _ rfl hplan).mpr
  intro delimiter hdelimiter
  have hslash : delimiter = some '/' := by
    apply Option.some.inj
    rw [← hdelimiter]
    decide +kernel
  rw [hslash]
  decide +kernel

/-- A folder renamed beside another's inside, where the name it takes is not listed itself, is put
over what is there; the inbox followed under another spelling is kept as followed but shown as
it was. -/
theorem listings_differ :
    (plan ⟨0⟩ (.rename "Work" "Jobs") (reads ["Jobs/2026", "Work", "Work/2026"]) =
        .ok ⟨⟨[.folderRename ⟨⟨0⟩, "Work"⟩ "Jobs" (some '/')],
          [.folderRename ⟨⟨0⟩, "Jobs"⟩ "Work" (some '/')]⟩, .rename "Work" "Jobs"⟩ ∧
      (layered ⟨0⟩ (reads ["Jobs/2026", "Work", "Work/2026"]).folders
        [.rename "Work" "Jobs"]).map (·.path) = ["Jobs", "Jobs/2026", "Jobs/2026"] ∧
      (((keptAs ["Jobs/2026", "Work", "Work/2026"]).writeAll
        [.folderRename ⟨⟨0⟩, "Work"⟩ "Jobs" (some '/')]).foldersOf ⟨0⟩).map (·.path) =
          ["Jobs", "Jobs/2026"]) ∧
    (plan ⟨0⟩ (.subscribe "inbox" .subscribed) (reads ["INBOX"]) =
        .ok ⟨⟨[.folderUpsert { listedAs "INBOX" with subscription := .subscribed }],
          [.folderUpsert (listedAs "INBOX")]⟩, .subscribe "inbox" .subscribed⟩ ∧
      layered ⟨0⟩ (reads ["INBOX"]).folders [.subscribe "inbox" .subscribed] =
        [listedAs "INBOX"] ∧
      ((keptAs ["INBOX"]).writeAll
        [.folderUpsert { listedAs "INBOX" with subscription := .subscribed }]).foldersOf ⟨0⟩ =
          [{ listedAs "INBOX" with subscription := .subscribed }]) := by
  decide +kernel

end Mailo.Folders
