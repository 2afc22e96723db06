import Mathlib.Data.List.Infix
import Mathlib.Data.String.Basic
import Mailo.Domain.Remote
import Mailo.Domain.Threading.Ids

/-!
# Mailboxes as the user manages them

What a server lists, and a listing with queued work laid over it. Work here is a change to the
set of mailboxes; the folder shown before the server has said so is the one it makes.
-/

namespace Mailo.Folders

open Domain

/-- Whether a mailbox can hold mail, or only other mailboxes. -/
inductive Holds where
  | mail | foldersOnly
deriving DecidableEq

/-- One mailbox on a server, as the last listing (and anything since queued) describes it. -/
structure Folder extends Domain.Folder where
  account : AccountId
  delimiter : Option Char
  subscription : Subscription
  holds : Holds
deriving DecidableEq

/-- Whether two paths name the same mailbox: exact, except for the inbox. -/
def same (a b : String) : Bool := a = b || (isInbox a && isInbox b)

/-- What is left of a path beneath an ancestor, after the separator. -/
def beneath (path ancestor : String) (delimiter : Char) : Option (List Char) :=
  (Text.stripPrefix ancestor.toList path.toList).bind (Text.stripPrefix [delimiter])

/-- A path with `origin` replaced by `target`, where it is `origin` or lies beneath it. -/
def renamed (path origin target : String) (delimiter : Option Char) : Option String :=
  if path = origin then some target
  else delimiter.bind fun d =>
    (beneath path origin d).map fun rest => String.ofList (target.toList ++ d :: rest)

def isBeneath (path ancestor : String) (delimiter : Option Char) : Bool :=
  delimiter.any fun d => (beneath path ancestor d).any fun rest => !rest.isEmpty

namespace Folder

def protected? (folder : Folder) : Option SpecialUse :=
  folder.special.or (if isInbox folder.path then some .inbox else none)

def contains (folder : Folder) (path : String) : Bool :=
  path = folder.path || isBeneath path folder.path folder.delimiter

def moved (folder : Folder) (path : String) : Folder :=
  { folder with path := path }

end Folder

def delimiterOf (folders : List Folder) : Option Char :=
  folders.findSome? fun folder => folder.delimiter

/-- The folder a creation makes, before the server has said so. -/
def created (account : AccountId) (path : String) (folders : List Folder) : Folder where
  account := account
  path := path
  delimiter := delimiterOf folders
  special := none
  subscription := .subscribed
  holds := .mail

/-- One piece of work laid over a listing. -/
def laid (account : AccountId) (folders : List Folder) : FolderWork → List Folder
  | .create path =>
    if folders.any fun folder => same folder.path path then folders
    else folders ++ [created account path folders]
  | .rename origin target =>
    let delimiter := (folders.find? fun folder => folder.path = origin).bind (·.delimiter)
    folders.map fun folder =>
      match renamed folder.path origin target delimiter with
      | some path => folder.moved path
      | none => folder
  | .delete path _ => folders.filter fun folder => folder.path ≠ path
  | .subscribe path subscription =>
    folders.map fun folder =>
      if folder.path = path then { folder with subscription := subscription } else folder

def inOrder (folders : List Folder) : List Folder :=
  folders.insertionSort fun a b => a.path ≤ b.path

/-- A listing with queued work laid over it, in the order it was queued. -/
def layered (account : AccountId) (listed : List Folder) (pending : List FolderWork) :
    List Folder :=
  inOrder (pending.foldl (laid account) listed)

def InPathOrder (folders : List Folder) : Prop :=
  folders.Pairwise fun a b => a.path ≤ b.path

theorem pairwise_by {α : Type} (name : α → String) (items : List α) :
    (items.insertionSort fun a b => name a ≤ name b).Pairwise fun a b => name a ≤ name b := by
  exact List.pairwise_insertionSort _ items

theorem inPathOrder_inOrder (folders : List Folder) : InPathOrder (inOrder folders) :=
  pairwise_by (fun folder : Folder => folder.path) folders

theorem inOrder_perm (folders : List Folder) : (inOrder folders).Perm folders :=
  List.perm_insertionSort _ folders

/-- Folders of distinct paths are listed in one way. -/
theorem InPathOrder.eq_of_perm {a b : List Folder} (ha : InPathOrder a) (hb : InPathOrder b)
    (distinct : (a.map fun folder => folder.path).Nodup) (h : a.Perm b) : a = b := by
  apply List.Perm.eq_of_pairwise _ ha hb h
  intro x y hx hy hxy hyx
  exact List.inj_on_of_nodup_map distinct hx (h.mem_iff.mpr hy) (le_antisymm hxy hyx)

/-! ## Renaming -/

variable {path new origin target : String} {delimiter : Option Char}

theorem beneath_eq_some {ancestor : String} {delimiter : Char} {rest : List Char}
    (h : beneath path ancestor delimiter = some rest) :
    path.toList = ancestor.toList ++ delimiter :: rest := by
  obtain ⟨left, hleft, hrest⟩ := Option.bind_eq_some_iff.mp h
  rw [Threading.stripPrefix_eq_some hleft, Threading.stripPrefix_eq_some hrest]
  rfl

theorem renamed_origin (origin target : String) (delimiter : Option Char) :
    renamed origin origin target delimiter = some target := if_pos rfl

theorem renamed_beneath (hne : path ≠ origin)
    (h : renamed path origin target delimiter = some new) :
    ∃ d rest, delimiter = some d ∧ path.toList = origin.toList ++ d :: rest ∧
      new.toList = target.toList ++ d :: rest := by
  rw [renamed, if_neg hne] at h
  obtain ⟨d, hd, hmap⟩ := Option.bind_eq_some_iff.mp h
  obtain ⟨rest, hrest, rfl⟩ := Option.map_eq_some_iff.mp hmap
  exact ⟨d, rest, hd, beneath_eq_some hrest, String.toList_ofList⟩

/-- No two paths are given one new path. -/
theorem renamed_injective {other : String} (h : renamed path origin target delimiter = some new)
    (hother : renamed other origin target delimiter = some new) : path = other := by
  by_cases hpath : path = origin
  · by_cases hsame : other = origin
    · rw [hpath, hsame]
    · obtain ⟨d, rest, -, -, hnew⟩ := renamed_beneath hsame hother
      rw [hpath, renamed_origin, Option.some.injEq] at h
      rw [h] at hnew
      have := congrArg List.length hnew
      simp at this
  · obtain ⟨d, rest, hd, hlist, hnew⟩ := renamed_beneath hpath h
    by_cases hsame : other = origin
    · rw [hsame, renamed_origin, Option.some.injEq] at hother
      rw [hother] at hnew
      have := congrArg List.length hnew
      simp at this
    · obtain ⟨e, tail, he, htail, hagain⟩ := renamed_beneath hsame hother
      have hde : d = e := Option.some.inj (hd.symm.trans he)
      rw [hnew, hde, List.append_right_inj, List.cons.injEq] at hagain
      apply String.toList_inj.mp
      rw [hlist, htail, hde, hagain.2]

/-! ## Deciding a folder change

The refusals that need no server, the local patch, its undo, and what to ask of the server.
-/

inductive NameFault where
  | empty
  | control
  | wildcard
  | level (delimiter : Char)
  | inside (origin : String)
deriving DecidableEq

inductive FolderError where
  | singleMailbox
  | keptLocally
  | special (path : String) (special : SpecialUse)
  | notEmpty (path : String) (messages : Nat)
  | «exists» (path : String)
  | unknown (path : String)
  | hasChildren (path : String)
  | badName (name : String) (why : NameFault)
deriving DecidableEq

/-- How an account's mail comes in. -/
inductive Incoming where
  | imap | pop3 | jmap | graph | «local»
deriving DecidableEq

/-- What is held in one folder: the messages addressed in it, and those labelled with its name. -/
structure FolderContents where
  mapped : List MessageId
  labelled : List MessageId
deriving DecidableEq

/-- How many distinct messages that is. -/
def FolderContents.count (contents : FolderContents) : Nat :=
  (contents.mapped ++ contents.labelled).dedup.length

structure FolderCtx where
  account : AccountId
  incoming : Incoming
  caps : AccountCaps
  folders : List Folder
  labels : List Label
  contents : FolderContents

inductive FolderChange where
  | folderUpsert (folder : Folder)
  | folderRemove (mailbox : MailboxRef)
  | folderRename (origin : MailboxRef) (target : String) (delimiter : Option Char)
  | labelUpsert (label : Label)
  | labelRemove (label : LabelId)
  | messageLabel (message : MessageId) (label : LabelId) (membership : Membership)
deriving DecidableEq

structure Changes where
  forward : List FolderChange
  inverse : List FolderChange
deriving DecidableEq

structure Applied where
  changes : Changes
  remote : FolderWork
deriving DecidableEq

def checkName (name : String) (delimiter : Option Char) : Except FolderError Unit :=
  let text := name.toList
  if (Text.trim text).isEmpty then .error (.badName name .empty)
  else if text.any Text.isControl then .error (.badName name .control)
  else if text.any fun c => c = '*' || c = '%' then .error (.badName name .wildcard)
  else match delimiter with
    | none => .ok ()
    | some d =>
      if text.head? = some d ∨ text.getLast? = some d ∨ [d, d] <:+: text then
        .error (.badName name (.level d))
      else .ok ()

namespace FolderCtx

variable (ctx : FolderCtx)

def mailbox (path : String) : MailboxRef := ⟨ctx.account, path⟩

def labelsAreMailboxes : Bool := ctx.caps.labels = .supported

def labelNamed (name : String) : Option Label :=
  ctx.labels.find? fun label => label.name = name && label.origin = .provider

def existing (path : String) : Except FolderError Folder :=
  match ctx.folders.find? fun folder => same folder.path path with
  | some folder => .ok folder
  | none => .error (.unknown path)

/-- Refuse to rename or delete a special folder, or one with a special folder inside it. -/
def untouchable (folder : Folder) : Except FolderError Unit :=
  let within := ctx.folders.filter fun other => folder.contains other.path
  match (folder :: within).findSome? fun other =>
      other.protected?.map fun special => FolderError.special other.path special with
  | some error => .error error
  | none => .ok ()

def create (fresh : LabelId) (path : String) : Except FolderError Changes := do
  checkName path (delimiterOf ctx.folders)
  if (ctx.folders.any fun folder => same folder.path path) || isInbox path then
    .error (.exists path)
  else
    let forward := .folderUpsert (created ctx.account path ctx.folders)
    let inverse := .folderRemove (ctx.mailbox path)
    -- a label to file mail under straight away, unless one of that name is held
    if ctx.labelsAreMailboxes && (ctx.labelNamed path).isNone then
      .ok ⟨[forward, .labelUpsert ⟨fresh, ctx.account, path, none, .provider⟩],
        [inverse, .labelRemove fresh]⟩
    else .ok ⟨[forward], [inverse]⟩

def rename (origin target : String) : Except FolderError Changes := do
  let folder ← ctx.existing origin
  ctx.untouchable folder
  checkName target folder.delimiter
  if (ctx.folders.any fun other => same other.path target) || isInbox target then
    .error (.exists target)
  else if folder.contains target then .error (.badName target (.inside origin))
  else
    .ok ⟨[.folderRename (ctx.mailbox folder.path) target folder.delimiter],
      [.folderRename (ctx.mailbox target) folder.path folder.delimiter]⟩

def delete (path : String) (nonEmpty : NonEmpty) : Except FolderError Changes := do
  let folder ← ctx.existing path
  ctx.untouchable folder
  if ctx.folders.any fun other => other.path ≠ folder.path && folder.contains other.path then
    .error (.hasChildren path)
  else if 0 < ctx.contents.count ∧ nonEmpty = .refuse then
    .error (.notEmpty path ctx.contents.count)
  else
    let gone := FolderChange.folderRemove (ctx.mailbox folder.path)
    let back := FolderChange.folderUpsert folder
    match if ctx.labelsAreMailboxes then ctx.labelNamed path else none with
    | some label =>
      .ok ⟨ctx.contents.labelled.map (.messageLabel · label.id .out) ++
          [.labelRemove label.id, gone],
        -- the undo puts the label back before anything is filed under it again
        back :: .labelUpsert label :: ctx.contents.labelled.map (.messageLabel · label.id .in)⟩
    | none => .ok ⟨[gone], [back]⟩

def subscribe (path : String) (subscription : Subscription) : Except FolderError Changes := do
  let folder ← ctx.existing path
  -- sent even when nothing changes here: the server may disagree with the last listing
  .ok ⟨[.folderUpsert { folder with subscription := subscription }], [.folderUpsert folder]⟩

def changes (fresh : LabelId) : FolderWork → Except FolderError Changes
  | .create path => ctx.create fresh path
  | .rename origin target => ctx.rename origin target
  | .delete path nonEmpty => ctx.delete path nonEmpty
  | .subscribe path subscription => ctx.subscribe path subscription

end FolderCtx

/-- Decide work: refuse it, or say what changes here, how to undo that, and what to ask of the
server. `fresh` is the id a label made here would be given. -/
def plan (fresh : LabelId) (work : FolderWork) (ctx : FolderCtx) : Except FolderError Applied :=
  match ctx.incoming with
  | .pop3 => .error .singleMailbox
  | .local => .error .keptLocally
  | .imap | .graph | .jmap => (ctx.changes fresh work).map fun changes => ⟨changes, work⟩

end Mailo.Folders
