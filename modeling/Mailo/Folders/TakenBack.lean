import Mailo.Folders.Kept

/-!
# Folder work taken back

A plan's inverse, written after the plan, leaves the folders of the account as they were. After a
rename it takes back whatever lies under the new name, so nothing may lie there before.
-/

namespace Mailo.Folders

open Domain Library

variable {kept : Kept} {account : AccountId} {folder : Folder} {path origin target new : String}
  {delimiter : Option Char}

/-! ## A rename and its inverse -/

theorem renamed_back (h : renamed path origin target delimiter = some new) :
    renamed new target origin delimiter = some path := by
  by_cases hpath : path = origin
  · rw [hpath, renamed_origin, Option.some.injEq] at h
    rw [hpath, h, renamed_origin]
  · obtain ⟨d, rest, rfl, hold, hnew⟩ := renamed_beneath hpath h
    have hne : new ≠ target := by
      rintro rfl
      simpa using congrArg List.length hnew
    have hbeneath : beneath new target d = some rest := by
      rw [beneath, hnew, Text.stripPrefix_append, Option.bind_some]
      exact Text.stripPrefix_append [d] rest
    rw [renamed, if_neg hne, Option.bind_some, hbeneath, Option.map_some, ← hold,
      String.ofList_toList]

theorem change_eq_self (h : renamed folder.path origin target delimiter = none) :
    change origin target delimiter folder = folder :=
  change_untouched (by rw [touched, h]; rfl)

theorem change_back (h : renamed folder.path target origin delimiter = none) :
    change target origin delimiter (change origin target delimiter folder) = folder := by
  cases hnew : renamed folder.path origin target delimiter with
  | none => rw [change_eq_self hnew, change_eq_self h]
  | some new =>
    rw [change_touched hnew, change_touched (renamed_back hnew)]
    rfl

/-- Where nothing lies under the new name, a rename goes there and comes back. -/
theorem rename_and_back (hfolder : folder ∈ kept.foldersOf account) (hpath : folder.path = origin)
    (hfree : ∀ other ∈ kept.foldersOf account,
      renamed other.path target origin folder.delimiter = none) :
    ((kept.renameFolder ⟨account, origin⟩ target folder.delimiter).renameFolder ⟨account, target⟩
      origin folder.delimiter).foldersOf account = kept.foldersOf account := by
  set there := kept.renameFolder ⟨account, origin⟩ target folder.delimiter
  have hgone : (there.foldersOf account).Perm
      ((kept.foldersOf account).map (change origin target folder.delimiter)) := by
    have hlaid : (laid account (kept.foldersOf account) (.rename origin target)).Perm
        (there.ofAccount account) :=
      (renamed_agrees hfolder hpath).mpr fun moved _ other hother h =>
        absurd (renamed_back h) (by simp [hfree other hother])
    rw [laid, find_path hfolder hpath] at hlaid
    exact (there.foldersOf_perm account).trans hlaid.symm
  have hmoved : folder.moved target ∈ there.foldersOf account := by
    rw [hgone.mem_iff, List.mem_map]
    exact ⟨folder, hfolder, change_touched (hpath ▸ renamed_origin folder.path target _)⟩
  have hclear : ∀ moved ∈ there.foldersOf account, ∀ other ∈ there.foldersOf account,
      renamed moved.path target origin folder.delimiter ≠ some other.path := by
    intro moved hmem other hother h
    obtain ⟨a, ha, rfl⟩ := List.mem_map.mp (hgone.mem_iff.mp hmem)
    obtain ⟨b, hb, rfl⟩ := List.mem_map.mp (hgone.mem_iff.mp hother)
    have hsame := congrArg (·.path) (change_touched h)
    rw [change_back (hfree a ha)] at hsame
    -- What would come back to the path of `a` is not `a`, nor can it be any other.
    cases hnew : renamed b.path origin target folder.delimiter with
    | none =>
      rw [change_eq_self hnew] at hsame
      rw [← show a.path = b.path from hsame] at hnew
      rw [change_eq_self hnew, hfree a ha] at h
      cases h
    | some onto =>
      rw [change_touched hnew] at hsame
      have hback := renamed_back hnew
      rw [← show a.path = onto from hsame, hfree a ha] at hback
      cases hback
  have hhome : (laid account (there.foldersOf account) (.rename target origin)).Perm
      ((there.renameFolder ⟨account, target⟩ origin folder.delimiter).ofAccount account) :=
    (renamed_agrees hmoved rfl).mpr fun moved hmem other hother h =>
      absurd h (hclear moved hmem other hother)
  rw [laid, find_path hmoved (show _ = target from rfl)] at hhome
  have hround : ((kept.foldersOf account).map (change origin target folder.delimiter)).map
      (change target origin folder.delimiter) = kept.foldersOf account := by
    rw [List.map_map, List.map_congr_left (g := id), List.map_id]
    exact fun other hother => change_back (hfree other hother)
  apply (Kept.inPathOrder_foldersOf _ account).eq_of_perm (kept.inPathOrder_foldersOf account)
    (Kept.paths_nodup _ account)
  exact ((Kept.foldersOf_perm _ account).trans (hhome.symm.trans (hgone.map _))).trans
    (.of_eq hround)

/-! ## Any work and its inverse -/

theorem foldersOf_congr {other : Kept} (h : ∀ key, kept.table.get key = other.table.get key) :
    kept.foldersOf account = other.foldersOf account := by
  apply (kept.inPathOrder_foldersOf account).eq_of_perm (other.inPathOrder_foldersOf account)
    (kept.paths_nodup account)
  apply (List.perm_ext_iff_of_nodup (kept.paths_nodup account).of_map
    (other.paths_nodup account).of_map).mpr
  intro folder
  rw [kept.mem_foldersOf, other.mem_foldersOf, h]

namespace FolderCtx

variable {ctx : FolderCtx} {changes : Changes}

theorem create_back {fresh : LabelId} (h : ctx.create fresh path = .ok changes) (kept : Kept) :
    kept.writeAll changes.inverse = kept.removeFolder ⟨ctx.account, path⟩ := by
  obtain ⟨-, -, h⟩ := steps_ok h
  split at h
  · cases h
  · split at h <;> cases h <;> rfl

theorem rename_back (h : ctx.rename origin target = .ok changes) :
    ∃ folder, ctx.existing origin = .ok folder ∧ folder.path = origin ∧
      changes = ⟨[.folderRename ⟨ctx.account, origin⟩ target folder.delimiter],
        [.folderRename ⟨ctx.account, target⟩ origin folder.delimiter]⟩ := by
  obtain ⟨folder, hfolder, h⟩ := steps_ok h
  obtain ⟨⟨⟩, htouch, h⟩ := steps_ok h
  obtain ⟨-, -, h⟩ := steps_ok h
  obtain rfl := path_of_untouchable hfolder htouch
  refine ⟨folder, hfolder, rfl, ?_⟩
  split at h
  · cases h
  · split at h <;> cases h
    rfl

theorem delete_back {nonEmpty : NonEmpty} (h : ctx.delete path nonEmpty = .ok changes)
    (kept : Kept) : ∃ folder, ctx.existing path = .ok folder ∧ folder.path = path ∧
      kept.writeAll changes.inverse = kept.upsertFolder folder := by
  obtain ⟨folder, hfolder, h⟩ := steps_ok h
  obtain ⟨⟨⟩, htouch, h⟩ := steps_ok h
  refine ⟨folder, hfolder, path_of_untouchable hfolder htouch, ?_⟩
  split at h
  · cases h
  · split at h
    · cases h
    · dsimp only at h
      split at h <;> cases h
      · change (kept.upsertFolder folder).writeAll (_ :: _) = _
        refine writeAll_labels _ fun change hchange => ?_
        rcases List.mem_cons.mp hchange with rfl | hchange
        · rfl
        · obtain ⟨message, -, rfl⟩ := List.mem_map.mp hchange
          rfl
      · rfl

theorem existing_mem (hlisted : ctx.folders = kept.foldersOf ctx.account)
    (h : ctx.existing path = .ok folder) : folder ∈ kept.foldersOf ctx.account :=
  List.mem_of_find?_eq_some (hlisted ▸ existing_ok h)

end FolderCtx

/-- What a rename is to find nothing of: folders under the name it gives. -/
def NewNameFree (work : FolderWork) (listing : List Folder) : Prop :=
  match work with
  | .rename origin target =>
    ∀ folder ∈ listing, folder.path = origin →
      ∀ other ∈ listing, renamed other.path target origin folder.delimiter = none
  | _ => True

/-- What a plan accepts, written and taken back, leaves the folders as they were; a rename does
where nothing lies under the new name. -/
theorem taken_back (kept : Kept) (fresh : LabelId) (work : FolderWork) (ctx : FolderCtx)
    {applied : Applied} (hlisted : ctx.folders = kept.foldersOf ctx.account)
    (h : plan fresh work ctx = .ok applied) (hfree : NewNameFree work ctx.folders) :
    (kept.writeAll (applied.changes.forward ++ applied.changes.inverse)).foldersOf ctx.account =
      kept.foldersOf ctx.account := by
  obtain ⟨changes, remote⟩ := applied
  have hchanges : ctx.changes fresh work = .ok changes := by
    unfold plan at h
    split at h
    · cases h
    · cases h
    all_goals
      cases hdone : ctx.changes fresh work <;> rw [hdone] at h <;> cases h
      rfl
  dsimp only
  rw [writeAll_append]
  cases work with
  | create path =>
    obtain ⟨hnew, hwritten⟩ := FolderCtx.create_ok hchanges kept
    rw [hwritten, FolderCtx.create_back hchanges]
    apply foldersOf_congr
    intro key
    rw [Kept.removeFolder, Kept.upsertFolder, Table.get_erase, Table.get_set]
    split
    · rename_i hkey
      rw [hkey, get_none_of_new (hlisted ▸ hnew)]
    · rename_i hkey
      exact if_neg hkey
  | rename origin target =>
    obtain ⟨folder, hfolder, hpath, rfl⟩ := FolderCtx.rename_back hchanges
    rw [NewNameFree, hlisted] at hfree
    have hmem := FolderCtx.existing_mem hlisted hfolder
    exact rename_and_back hmem hpath (hfree folder hmem hpath)
  | delete path nonEmpty =>
    obtain ⟨folder, hfolder, hpath, hback⟩ :=
      FolderCtx.delete_back hchanges (kept.writeAll changes.forward)
    obtain ⟨hheld, haccount⟩ := kept.mem_foldersOf.mp (FolderCtx.existing_mem hlisted hfolder)
    rw [hback, FolderCtx.delete_ok hchanges]
    apply foldersOf_congr
    intro key
    rw [Kept.upsertFolder, Kept.removeFolder, Table.get_set, Table.get_erase, ← hpath, ← haccount]
    split
    · rename_i hkey
      rw [hkey, hheld]
    · rename_i hkey
      exact if_neg hkey
  | subscribe path subscription =>
    obtain ⟨folder, hfolder, h⟩ := steps_ok hchanges
    cases h
    obtain ⟨hheld, -⟩ := kept.mem_foldersOf.mp (FolderCtx.existing_mem hlisted hfolder)
    apply foldersOf_congr
    intro key
    change ((kept.table.set folder.key _).set folder.key folder).get key = _
    rw [Table.get_set, Table.get_set]
    split
    · rename_i hkey
      rw [hkey, hheld]
    · rfl

/-- `Work` and what lies in it, renamed beside a folder whose name begins alike. -/
theorem taken_back_jobs : ((keptAs ["Jobsite", "Work", "Work/2026"]).writeAll
      [.folderRename ⟨⟨0⟩, "Work"⟩ "Jobs" (some '/'),
        .folderRename ⟨⟨0⟩, "Jobs"⟩ "Work" (some '/')]).foldersOf ⟨0⟩ =
    (keptAs ["Jobsite", "Work", "Work/2026"]).foldersOf ⟨0⟩ := by
  have hplan : plan ⟨0⟩ (.rename "Work" "Jobs") (reads ["Jobsite", "Work", "Work/2026"]) =
      .ok ⟨⟨[.folderRename ⟨⟨0⟩, "Work"⟩ "Jobs" (some '/')],
        [.folderRename ⟨⟨0⟩, "Jobs"⟩ "Work" (some '/')]⟩, .rename "Work" "Jobs"⟩ := by
    decide +kernel
  apply taken_back (keptAs ["Jobsite", "Work", "Work/2026"]) ⟨0⟩ _ _ rfl hplan
  rw [NewNameFree]
  decide +kernel

end Mailo.Folders
