import Mailo.Proto.Imap.Addressed
import Mailo.Proto.Imap.Printed
import Mailo.Proto.Imap.Spoken

/-!
# What is deleted for good

Only two walks delete: one over messages of Trash or Spam, which stops unless the mailbox still
has the numbers it is asked to delete, and one over a draft's copies, which deletes what a search
for them found.
-/

namespace Mailo.Proto.Imap

open Domain Library Proto.Search

/-- The set of UIDs a command marks deleted or expunges. -/
def ImapCommand.deletes : ImapCommand → Option String
  | .uidStore set what _ => if what = markDeleted then some set else none
  | .uidExpunge set => some set
  | _ => none

/-- A command that deletes nothing. -/
structure Harmless (command : ImapCommand) : Prop where
  deletes : command.deletes = none
  found : command.isFound = false

variable {set : String} {commands : List ImapCommand} {d : Decided} {k i : Nat}
  {trail : List Decided} {command : ImapCommand} {backend : Backend}

theorem harmless_store {what : String} (h : what ≠ markDeleted) (tolerate : Bool) :
    Harmless (.uidStore set what tolerate) :=
  ⟨if_neg h, rfl⟩

theorem ne_markDeleted {lead rest : String}
    (h : lead.toList ≠ markDeleted.toList.take lead.toList.length) :
    lead ++ rest ≠ markDeleted := by
  intro heq
  apply h
  rw [← heq, String.toList_append, List.take_left]

namespace Backend

def AllHarmless (commands : List ImapCommand) : Prop := ∀ command ∈ commands, Harmless command

theorem AllHarmless.nil : AllHarmless [] := by
  intro command hcommand
  cases hcommand

theorem AllHarmless.cons {command : ImapCommand} {rest : List ImapCommand}
    (h : Harmless command) (hrest : AllHarmless rest) : AllHarmless (command :: rest) := by
  intro c hc
  rcases List.mem_cons.mp hc with rfl | hc
  · exact h
  · exact hrest c hc

variable {a b : List ImapCommand}

theorem AllHarmless.append (ha : AllHarmless a) (hb : AllHarmless b) :
    AllHarmless (a ++ b) := by
  intro c hc
  rcases List.mem_append.mp hc with hc | hc
  · exact ha c hc
  · exact hb c hc

theorem AllHarmless.ite {p : Prop} [Decidable p] (ha : AllHarmless a) (hb : AllHarmless b) :
    AllHarmless (if p then a else b) := by
  split
  · exact ha
  · exact hb

theorem AllHarmless.one (h : Harmless command) : AllHarmless [command] :=
  .cons h .nil

theorem harmless_flagStore {set sign : String} {words : List String}
    (h : (sign ++ " (").toList ≠ markDeleted.toList.take (sign ++ " (").toList.length) :
    Harmless (flagStore set sign words) := by
  apply harmless_store
  rw [String.append_assoc]
  exact ne_markDeleted h

theorem harmless_storeSome {set sign : String} {words : List String}
    (h : (sign ++ " (").toList ≠ markDeleted.toList.take (sign ++ " (").toList.length) :
    AllHarmless (storeSome set sign words) := by
  unfold storeSome
  exact .ite .nil (.one (harmless_flagStore h))

variable {commands : List ImapCommand} {job : Job} {remotes : List RemoteRef}

theorem over_harmless {walk : String → Begun} (h : «over» remotes walk = .walk job commands)
    (hwalk : ∀ set, walk set = .walk job commands → AllHarmless commands) :
    AllHarmless commands := by
  unfold «over» at h
  split at h
  · cases h
  · exact hwalk _ h

theorem harmless_junkMarks (caps : Caps) (source : String) (role : MailboxRole) (set : String) :
    AllHarmless (junkMarks caps source role set) := by
  unfold junkMarks
  split
  · exact .cons (harmless_store (by decide) _) (.one (harmless_store (by decide) _))
  · exact .ite (.cons (harmless_store (by decide) _) (.one (harmless_store (by decide) _))) .nil
  · exact .nil

theorem moveInto_harmless {source target : String} {marks : List ImapCommand}
    (hmarks : AllHarmless marks)
    (h : backend.moveInto source remotes set target marks = .walk job commands) :
    AllHarmless commands := by
  unfold moveInto at h
  split at h
  · cases h
  · cases h
    apply AllHarmless.cons ⟨rfl, rfl⟩
    apply AllHarmless.append hmarks
    apply AllHarmless.one
    split
    · exact ⟨rfl, rfl⟩
    · exact ⟨rfl, rfl⟩

theorem fetch_harmless {made : Job} {failing : Option Job} {items : String}
    (h : fetch made failing remotes items = .walk job commands) : AllHarmless commands := by
  unfold fetch at h
  split at h
  · cases h
  · cases h
    exact .cons ⟨rfl, rfl⟩ (.one ⟨rfl, rfl⟩)

def mayDelete : ProtoOp → Bool
  | .destroy _ | .keepDraft _ _ _ | .dropDraft _ _ _ => true
  | _ => false

theorem harmless_folderCommands (work : FolderWork) : AllHarmless (folderCommands work) := by
  unfold folderCommands
  split
  · exact .cons ⟨rfl, rfl⟩ (.one ⟨rfl, rfl⟩)
  · exact .one ⟨rfl, rfl⟩
  · exact .cons ⟨rfl, rfl⟩ (.one ⟨rfl, rfl⟩)
  · exact .one ⟨rfl, rfl⟩
  · exact .one ⟨rfl, rfl⟩
  · exact .one ⟨rfl, rfl⟩

theorem setFlags_harmless {read : Option ReadState} {star : Option Star}
    (h : backend.setFlags remotes read star = .walk job commands) : AllHarmless commands := by
  apply over_harmless h
  intro set hwalk
  cases hwalk
  exact .cons ⟨rfl, rfl⟩
    (.append (harmless_storeSome (by decide)) (harmless_storeSome (by decide)))

theorem setFlag_harmless {hue : Hue} (h : backend.setFlag remotes hue = .walk job commands) :
    AllHarmless commands := by
  unfold setFlag at h
  split at h
  apply over_harmless h
  intro set hwalk
  cases hwalk
  exact .cons ⟨rfl, rfl⟩ (.cons (harmless_flagStore (by decide)) (harmless_storeSome (by decide)))

theorem setLabels_harmless {add remove : List String}
    (h : backend.setLabels remotes add remove = .walk job commands) : AllHarmless commands := by
  unfold setLabels at h
  split at h
  · unfold storeLabelKeywords at h
    apply over_harmless h
    intro set hwalk
    split at hwalk
    · cases hwalk
    · cases hwalk
      exact .cons ⟨rfl, rfl⟩
        (.append (harmless_storeSome (by decide)) (harmless_storeSome (by decide)))
  · cases h
  · apply over_harmless h
    intro set hwalk
    cases hwalk
    exact .cons ⟨rfl, rfl⟩ (.append (.ite .nil (.one (harmless_flagStore (by decide))))
      (.ite .nil (.one (harmless_flagStore (by decide)))))

theorem setMailbox_harmless {role : MailboxRole}
    (h : backend.setMailbox remotes role = .walk job commands) : AllHarmless commands := by
  apply over_harmless h
  intro set hwalk
  split at hwalk
  · cases hwalk
  · cases hwalk
    refine .cons ⟨rfl, rfl⟩ (.append ?_ (.ite .nil (.one (harmless_store (by decide) _))))
    split
    · apply AllHarmless.one
      apply harmless_store
      rw [String.append_assoc]
      exact ne_markDeleted (by decide)
    · exact .nil
  · split at hwalk
    · cases hwalk
    · exact moveInto_harmless (harmless_junkMarks _ _ _ _) hwalk

theorem file_harmless {folder : String} (h : backend.file remotes folder = .walk job commands) :
    AllHarmless commands := by
  apply over_harmless h
  intro set hwalk
  split at hwalk
  · cases hwalk
  · cases hwalk
    exact .cons ⟨rfl, rfl⟩ (.cons (harmless_flagStore (by decide))
      (.one (harmless_store (by decide) _)))
  · exact moveInto_harmless .nil hwalk

theorem copy_harmless {folder : String} (h : backend.copy remotes folder = .walk job commands) :
    AllHarmless commands := by
  apply over_harmless h
  intro set hwalk
  split at hwalk
  · cases hwalk
  · cases hwalk
    exact .cons ⟨rfl, rfl⟩ (.one (harmless_flagStore (by decide)))
  · unfold copyInto at hwalk
    split at hwalk
    · cases hwalk
    · cases hwalk
      exact .cons ⟨rfl, rfl⟩ (.one ⟨rfl, rfl⟩)

theorem fetchEnvelopes_harmless {mailbox : MailboxRef} {since : FetchSince}
    (h : backend.fetchEnvelopes mailbox since = .walk job commands) : AllHarmless commands := by
  unfold fetchEnvelopes at h
  split at h
  · cases h
    exact .cons ⟨rfl, rfl⟩ (.one ⟨rfl, rfl⟩)
  · cases h
    exact .cons ⟨rfl, rfl⟩ (.one ⟨rfl, rfl⟩)
  · cases h

theorem listRemote_harmless {mailbox : MailboxRef} {since : Option Resync}
    (h : backend.listRemote mailbox since = .walk job commands) : AllHarmless commands := by
  unfold listRemote at h
  split at h
  · split at h
    · cases h
      exact .cons ⟨rfl, rfl⟩ (.one ⟨rfl, rfl⟩)
    · cases h
      exact .cons ⟨rfl, rfl⟩ (.one ⟨rfl, rfl⟩)
  · cases h
    exact .cons ⟨rfl, rfl⟩ (.one ⟨rfl, rfl⟩)

theorem fetchSections_harmless {describe : Describe} {remote : RemoteRef} {sections : List Section}
    (h : fetchSections describe remote sections = .walk job commands) : AllHarmless commands := by
  unfold fetchSections at h
  split at h
  · cases h
  · exact fetch_harmless h

section Begin

variable [TextTables]

theorem watch_harmless {describe : Describe} {mailbox : MailboxRef} {uidnext : Option UInt32}
    {also : List String}
    (h : backend.begun describe (.watch mailbox uidnext also) = .walk job commands) :
    AllHarmless commands := by
  cases h
  refine .append (.append (.append (.append ?_ (.one ⟨rfl, rfl⟩)) ?_) ?_) ?_
  · exact .ite .nil (.one ⟨rfl, rfl⟩)
  · exact .ite .nil (.one ⟨rfl, rfl⟩)
  · apply AllHarmless.one
    split
    · exact ⟨rfl, rfl⟩
    · exact ⟨rfl, rfl⟩
  · exact .ite .nil (.one ⟨rfl, rfl⟩)

theorem begun_harmless {describe : Describe} {op : ProtoOp} (hop : mayDelete op = false)
    (h : backend.begun describe op = .walk job commands) : AllHarmless commands := by
  cases op with
  | fetchCaps =>
    cases h
    exact .cons ⟨rfl, rfl⟩ (.cons ⟨rfl, rfl⟩ (.one ⟨rfl, rfl⟩))
  | listFolders =>
    cases h
    exact .cons ⟨rfl, rfl⟩ (.one ⟨rfl, rfl⟩)
  | folder work =>
    cases h
    exact harmless_folderCommands work
  | fetchHeaders | fetchBody | fetchStructure => exact fetch_harmless h
  | fetchSections => exact fetchSections_harmless h
  | setFlags => exact setFlags_harmless h
  | setFlag => exact setFlag_harmless h
  | addKeyword =>
    apply over_harmless h
    intro set hwalk
    cases hwalk
    exact .cons ⟨rfl, rfl⟩ (.one (harmless_flagStore (by decide)))
  | setLabels => exact setLabels_harmless h
  | setMailbox => exact setMailbox_harmless h
  | file => exact file_harmless h
  | copy => exact copy_harmless h
  | fetchEnvelopes => exact fetchEnvelopes_harmless h
  | fetchFlags =>
    cases h
    exact .cons ⟨rfl, rfl⟩ (.one ⟨rfl, rfl⟩)
  | listRemote => exact listRemote_harmless h
  | watch => exact watch_harmless h
  | append mailbox flags date raw =>
    simp only [begun] at h
    split at h
    · cases h
    · cases h
      exact .cons ⟨rfl, rfl⟩ (.one ⟨rfl, rfl⟩)
  | submit | expunge => cases h
  | destroy | keepDraft | dropDraft => cases hop

/-- What replaces or removes a draft's copies begins as a walk over Drafts: what a search for the
draft finds is deleted, and what stands between them is harmless. -/
theorem draftCopy_walk {mailbox : MailboxRef} {messageId : String} {raw : Option Bytes}
    (h : backend.draftCopy mailbox messageId raw = .walk job commands) :
    backend.caps.folders.role mailbox.path = some .drafts ∧
      ∃ criteria appends, draftSearch messageId = some criteria ∧
        commands = .capability :: selecting mailbox.path .readWrite :: .uidSearch criteria ::
          (appends ++ [.uidStoreFound markDeleted, .uidExpungeFound]) ∧
        ∀ command ∈ appends, ∃ flags body,
          command = .append mailbox.path flags none body := by
  unfold draftCopy at h
  split at h
  · cases h
  · rename_i hrole
    rw [ne_eq, not_not] at hrole
    split at h
    · cases h
    · rename_i criteria hcriteria
      cases h
      refine ⟨hrole, criteria, (raw.map fun raw => ImapCommand.append mailbox.path
        ([SystemFlag.draft, .seen].map wireFlag) none raw).toList, hcriteria, ?_, ?_⟩
      · simp
      · intro command hcommand
        rw [Option.mem_toList, Option.map_eq_some_iff] at hcommand
        rcases hcommand with ⟨body, _, rfl⟩
        exact ⟨_, _, rfl⟩

end Begin

end Backend

/-! ## Guards -/

/-- A walk goes past the guard only if the last number reported is the one expected. -/
theorem guard_passed (htrail : Session.Trailed commands trail) {expected : UInt32}
    (hguard : commands[k]? = some (.requireUidValidity expected)) (hd : trail[k]? = some d) :
    reportedUidvalidity d.knew.untagged = some expected := by
  rcases htrail.fits k d hd with ⟨command, hcommand, hdecided⟩
  rw [hguard, Option.some.injEq] at hcommand
  rw [← hcommand] at hdecided
  unfold Session.decision at hdecided
  dsimp only at hdecided
  split at hdecided
  · rename_i now hnow
    split at hdecided
    · rename_i hsame
      rw [hnow, hsame]
    · rcases hdecided with ⟨hpass, _⟩ | ⟨sent, hsend, _⟩
      · cases hpass
      · cases hsend
  · rcases hdecided with ⟨hpass, _⟩ | ⟨sent, hsend, _⟩
    · cases hpass
    · cases hsend

theorem offer_passed (htrail : Session.Trailed commands trail) {any : List String}
    (hguard : commands[k]? = some (.requireCapability any)) (hd : trail[k]? = some d) :
    ∃ atom ∈ any, hasCapability d.knew.capabilities atom = true := by
  rcases htrail.fits k d hd with ⟨command, hcommand, hdecided⟩
  rw [hguard, Option.some.injEq] at hcommand
  rw [← hcommand] at hdecided
  unfold Session.decision at hdecided
  dsimp only at hdecided
  split at hdecided
  · rename_i hoffered
    exact List.any_eq_true.mp hoffered
  · rcases hdecided with ⟨hpass, _⟩ | ⟨sent, hsend, _⟩
    · cases hpass
    · cases hsend

theorem searchBefore_spec {index search : Nat} (h : searchBefore commands index = some search) :
    search < index ∧ ∃ command, commands[search]? = some command ∧ isUidSearch command = true := by
  induction index with
  | zero => cases h
  | succ index ih =>
    unfold searchBefore at h
    split at h
    · rename_i hsearch
      rw [← Option.some.inj h]
      cases hcommand : commands[index]? with
      | none =>
        rw [hcommand] at hsearch
        cases hsearch
      | some command =>
        rw [hcommand] at hsearch
        exact ⟨Nat.lt_succ_self _, command, rfl, hsearch⟩
    · rcases ih h with ⟨hlt, hcommand⟩
      exact ⟨Nat.lt_succ_of_lt hlt, hcommand⟩

theorem found_deletes {knew : Transcript} {found sent : ImapCommand} (hfound : found.isFound = true)
    (h : Session.decision commands knew i found = .send sent) (hdeletes : sent.deletes = some set) :
    ∃ search, searchBefore commands i = some search ∧
      foundDuring search knew.untagged ≠ [] ∧
      set = setText (foundDuring search knew.untagged) := by
  have hbefore : ∀ uids, foundBefore commands knew.untagged i = some uids →
      ∃ search, searchBefore commands i = some search ∧ uids ≠ [] ∧
        uids = foundDuring search knew.untagged := by
    intro uids huids
    unfold foundBefore at huids
    split at huids
    · cases huids
    · rename_i search hsearch
      dsimp only at huids
      split at huids
      · cases huids
      · rename_i hne
        cases huids
        exact ⟨search, hsearch, by simpa using hne, rfl⟩
  cases found with
  | uidStoreFound what =>
    unfold Session.decision at h
    dsimp only at h
    split at h
    · rename_i uids huids
      cases h
      rcases hbefore uids huids with ⟨search, hsearch, hne, rfl⟩
      unfold ImapCommand.deletes at hdeletes
      dsimp only at hdeletes
      split at hdeletes
      · exact ⟨search, hsearch, hne, (Option.some.inj hdeletes).symm⟩
      · cases hdeletes
    · cases h
  | uidExpungeFound =>
    unfold Session.decision at h
    dsimp only at h
    split at h
    · rename_i uids huids
      split at h
      · cases h
        rcases hbefore uids huids with ⟨search, hsearch, hne, rfl⟩
        exact ⟨search, hsearch, hne, (Option.some.inj hdeletes).symm⟩
      · cases h
    · cases h
  | _ => cases hfound

/-! ## What a deletion rests on -/

/-- A deletion that was asked for: of the numbers named, in Trash or Spam, and once the server had
reported the mailbox to be the one they were taken from and offered to expunge just them. -/
structure Entitled (backend : Backend) (remotes : List RemoteRef) (trail : List Decided) (i : Nat)
    (d : Decided) (set : String) : Prop where
  set : set = setText (uidsOf remotes)
  role : backend.caps.folders.role (mailboxPath remotes) = some .trash ∨
    backend.caps.folders.role (mailboxPath remotes) = some .spam
  selected : SelectedAt trail i d.knew (mailboxPath remotes)
  reported : ∃ (k : Nat) (guard : Decided), k < i ∧ trail[k]? = some guard ∧
    SelectedAt trail k guard.knew (mailboxPath remotes) ∧ guard.knew.Grows d.knew ∧
      ∀ remote ∈ remotes, ∃ mailbox uidvalidity uid,
        remote = .imap mailbox uidvalidity uid ∧ sameFolder mailbox (mailboxPath remotes) = true ∧
          reportedUidvalidity guard.knew.untagged = some uidvalidity
  offered : ∃ (k : Nat) (offer : Decided), k < i ∧ trail[k]? = some offer ∧
    (hasCapability offer.knew.capabilities "UIDPLUS" = true ∨
      hasCapability offer.knew.capabilities "IMAP4rev2" = true)

/-- A deletion of a draft's copies: of what the server's answer to the search for them listed, in
Drafts. -/
structure Sought (backend : Backend) (mailbox : MailboxRef) (messageId : String)
    (trail : List Decided) (i : Nat) (d : Decided) (set : String) : Prop where
  role : backend.caps.folders.role mailbox.path = some .drafts
  selected : SelectedAt trail i d.knew mailbox.path
  found : ∃ (search : Nat) (asked : Decided) (criteria : String) (text : List Char),
    search < i ∧ draftSearch messageId = some criteria ∧ trail[search]? = some asked ∧
      asked.sent = some (.uidSearch criteria) ∧ ⟨search, text⟩ ∈ d.knew.completed ∧
      foundDuring search d.knew.untagged ≠ [] ∧
      set = setText (foundDuring search d.knew.untagged)

theorem trail_before (hd : trail[i]? = some d) (hk : k < i) : ∃ e, trail[k]? = some e := by
  have hlength := (List.getElem?_eq_some_iff.mp hd).1
  exact ⟨_, List.getElem?_eq_getElem (by omega)⟩

/-- What the walks begin with, to sign in or not to. -/
def lead (backend : Backend) : List ImapCommand :=
  if backend.kept.isSome then [] else [backend.build.mechanism, .compress]

theorem whole_eq (backend : Backend) (commands : List ImapCommand) :
    backend.whole commands = lead backend ++ commands := by
  unfold Backend.whole lead
  split
  · rfl
  · rfl

theorem lead_harmless (backend : Backend) : Backend.AllHarmless (lead backend) := by
  unfold lead
  refine .ite .nil (.cons ?_ (.one ⟨rfl, rfl⟩))
  unfold Factory.mechanism
  split
  · exact ⟨rfl, rfl⟩
  · exact ⟨rfl, rfl⟩

theorem lead_search (backend : Backend) :
    ∀ command ∈ lead backend, isUidSearch command = false := by
  intro command hcommand
  unfold lead at hcommand
  split at hcommand
  · cases hcommand
  · simp only [List.mem_cons, List.not_mem_nil, or_false] at hcommand
    rcases hcommand with rfl | rfl
    · unfold Factory.mechanism
      split
      · rfl
      · rfl
    · rfl

theorem trailed_harmless (htrail : Session.Trailed commands trail) (hd : trail[i]? = some d)
    (hsent : d.sent = some command) (hharmless : ∀ c, commands[i]? = some c → Harmless c) :
    command.deletes = none := by
  rcases (htrail.fits i d hd).sent hsent with hcommand | ⟨found, hcommand, hfound, _⟩
  · exact (hharmless command hcommand).deletes
  · rw [(hharmless found hcommand).found] at hfound
    cases hfound

theorem getElem?_past {α : Type} (before rest : List α) (x : α) (k : Nat) :
    (before ++ x :: rest)[before.length + 1 + k]? = rest[k]? := by
  rw [List.getElem?_append_right (by omega)]
  have hplace : before.length + 1 + k - before.length = k + 1 := by omega
  rw [hplace]
  rfl

variable {remotes : List RemoteRef} {uidvalidity : UInt32}

/-- What a deletion does in the mailbox it selects. -/
def checked (remotes : List RemoteRef) (uidvalidity : UInt32) : List ImapCommand :=
  [.requireUidValidity uidvalidity, .requireCapability ["UIDPLUS", "IMAP4rev2"],
    .uidStore (setText (uidsOf remotes)) markDeleted false,
    .uidExpunge (setText (uidsOf remotes))]

theorem destroys_whole (h : backend.Destroys remotes uidvalidity commands) :
    backend.whole commands = (lead backend ++ [.capability]) ++
      selecting (mailboxPath remotes) .readWrite :: checked remotes uidvalidity := by
  rw [whole_eq, h.walk, List.append_assoc]
  rfl

theorem checked_selects (remotes : List RemoteRef) (uidvalidity : UInt32) :
    ∀ command ∈ checked remotes uidvalidity, command.selects = none := by
  intro command hcommand
  simp only [checked, List.mem_cons, List.not_mem_nil, or_false] at hcommand
  rcases hcommand with rfl | rfl | rfl | rfl
  · rfl
  · rfl
  · rfl
  · rfl

theorem destroys_entitled (h : backend.Destroys remotes uidvalidity commands)
    (htrail : Session.Trailed (backend.whole commands) trail) (hd : trail[i]? = some d)
    (hsent : d.sent = some command) (hdeletes : command.deletes = some set) :
    Entitled backend remotes trail i d set := by
  let before := lead backend ++ [.capability]
  let rest := checked remotes uidvalidity
  have hwhole : backend.whole commands =
      before ++ selecting (mailboxPath remotes) .readWrite :: rest := destroys_whole h
  have hselects := checked_selects remotes uidvalidity
  have hat : ∀ k, (backend.whole commands)[before.length + 1 + k]? = rest[k]? := by
    intro k
    rw [hwhole]
    exact getElem?_past _ _ _ _
  -- Only the two commands after the guards delete.
  have hplace : before.length + 3 ≤ i ∧ set = setText (uidsOf remotes) := by
    by_contra hno
    have hharmless : ∀ c, (backend.whole commands)[i]? = some c → Harmless c ∨
        before.length + 3 ≤ i ∧ (c.isFound = false) ∧
          (c = .uidStore (setText (uidsOf remotes)) markDeleted false ∨
            c = .uidExpunge (setText (uidsOf remotes))) := by
      intro c hc
      rcases Nat.lt_or_ge before.length i with hi | hi
      · have hi : i = before.length + 1 + (i - before.length - 1) := by omega
        rw [hi, hat] at hc
        generalize hk : i - before.length - 1 = k at hc
        rcases k with _ | _ | _ | _ | k
        · cases hc
          exact .inl ⟨rfl, rfl⟩
        · cases hc
          exact .inl ⟨rfl, rfl⟩
        · cases hc
          exact .inr ⟨by omega, rfl, .inl rfl⟩
        · cases hc
          exact .inr ⟨by omega, rfl, .inr rfl⟩
        · cases hc
      · rw [hwhole] at hc
        rcases getElem?_before hc with ⟨hmem, _⟩ | ⟨hmem, _⟩ | ⟨_, hlt⟩
        · exact .inl ((lead_harmless backend).append (.one ⟨rfl, rfl⟩) c hmem)
        · rw [hmem]
          exact .inl ⟨rfl, rfl⟩
        · omega
    rcases (htrail.fits i d hd).sent hsent with hcommand | ⟨found, hcommand, hfound, _⟩
    · rcases hharmless command hcommand with hsafe | ⟨hi, _, hstore | hexpunge⟩
      · rw [hsafe.deletes] at hdeletes
        cases hdeletes
      · rw [hstore] at hdeletes
        exact hno ⟨hi, (Option.some.inj hdeletes).symm⟩
      · rw [hexpunge] at hdeletes
        exact hno ⟨hi, (Option.some.inj hdeletes).symm⟩
    · rcases hharmless found hcommand with hsafe | ⟨_, hnone, _⟩
      · rw [hsafe.found] at hfound
        cases hfound
      · rw [hnone] at hfound
        cases hfound
  rcases trail_before hd (by omega : before.length + 1 < i) with ⟨guard, hguard⟩
  rcases trail_before hd (by omega : before.length + 2 < i) with ⟨offer, hoffer⟩
  refine ⟨hplace.2, h.role, ?_, ?_, ?_⟩
  · exact trailed_selected hwhole hselects htrail hd (by omega)
  · refine ⟨before.length + 1, guard, by omega, hguard, ?_, ?_, ?_⟩
    · exact trailed_selected hwhole hselects htrail hguard (by omega)
    · exact htrail.grows _ _ _ _ (by omega) hguard hd
    · intro remote hremote
      rcases h.numbered remote hremote with ⟨mailbox, uid, hnumbered, hsame⟩
      exact ⟨mailbox, uidvalidity, uid, hnumbered, hsame, guard_passed htrail (hat 0) hguard⟩
  · refine ⟨before.length + 2, offer, by omega, hoffer, ?_⟩
    rcases offer_passed htrail (hat 1) hoffer with ⟨atom, hatom, hhas⟩
    simp only [List.mem_cons, List.not_mem_nil, or_false] at hatom
    rcases hatom with rfl | rfl
    · exact .inl hhas
    · exact .inr hhas

theorem draft_sought [TextTables] {mailbox : MailboxRef} {messageId : String} {raw : Option Bytes}
    {job : Job} (h : backend.draftCopy mailbox messageId raw = .walk job commands)
    (htrail : Session.Trailed (backend.whole commands) trail) (hd : trail[i]? = some d)
    (hsent : d.sent = some command) (hdeletes : command.deletes = some set) :
    Sought backend mailbox messageId trail i d set := by
  rcases Backend.draftCopy_walk h with ⟨hrole, criteria, appends, hcriteria, hwalk, happends⟩
  let before := lead backend ++ [.capability]
  let rest : List ImapCommand := .uidSearch criteria ::
    (appends ++ [.uidStoreFound markDeleted, .uidExpungeFound])
  have hwhole : backend.whole commands = before ++ selecting mailbox.path .readWrite :: rest := by
    rw [whole_eq, hwalk, List.append_assoc]
    rfl
  have hrest : ∀ c ∈ rest, c.selects = none ∧ (c.isFound = false → Harmless c) ∧
      (isUidSearch c = true → c = .uidSearch criteria) := by
    intro c hc
    simp only [rest, List.mem_cons, List.mem_append, List.not_mem_nil, or_false] at hc
    rcases hc with rfl | happend | rfl | rfl
    · exact ⟨rfl, fun _ => ⟨rfl, rfl⟩, fun _ => rfl⟩
    · rcases happends c happend with ⟨flags, body, rfl⟩
      exact ⟨rfl, fun _ => ⟨rfl, rfl⟩, fun hsearch => (by cases hsearch)⟩
    · exact ⟨rfl, fun hfound => (by cases hfound), fun hsearch => (by cases hsearch)⟩
    · exact ⟨rfl, fun hfound => (by cases hfound), fun hsearch => (by cases hsearch)⟩
  have hharmless : ∀ c, (backend.whole commands)[i]? = some c → c.isFound = false →
      Harmless c := by
    intro c hc hfound
    rw [hwhole] at hc
    rcases getElem?_before hc with ⟨hmem, _⟩ | ⟨hmem, _⟩ | ⟨hmem, _⟩
    · exact (lead_harmless backend).append (.one ⟨rfl, rfl⟩) c hmem
    · rw [hmem]
      exact ⟨rfl, rfl⟩
    · exact (hrest c hmem).2.1 hfound
  have hi : ∀ k, (∃ c, (backend.whole commands)[k]? = some c ∧
      (c.isFound = true ∨ isUidSearch c = true)) → before.length < k := by
    rintro k ⟨c, hc, hkind⟩
    rw [hwhole] at hc
    rcases getElem?_before hc with ⟨hmem, _⟩ | ⟨hmem, _⟩ | ⟨_, hlt⟩
    · have hsafe := (lead_harmless backend).append (.one ⟨rfl, rfl⟩) c hmem
      rcases hkind with hfound | hsearch
      · rw [hsafe.found] at hfound
        cases hfound
      · rcases List.mem_append.mp hmem with hlead | hone
        · rw [lead_search backend c hlead] at hsearch
          cases hsearch
        · rw [List.mem_singleton.mp hone] at hsearch
          cases hsearch
    · rw [hmem] at hkind
      rcases hkind with hfound | hsearch
      · cases hfound
      · cases hsearch
    · exact hlt
  rcases (htrail.fits i d hd).sent hsent with hcommand | ⟨found, hcommand, hfound, hsend⟩
  · cases hkind : command.isFound with
    | false =>
      rw [(hharmless command hcommand hkind).deletes] at hdeletes
      cases hdeletes
    | true =>
      cases command with
      | uidStoreFound | uidExpungeFound => cases hdeletes
      | _ => cases hkind
  · rcases found_deletes hfound hsend hdeletes with ⟨search, hbefore, hne, hset⟩
    rcases searchBefore_spec hbefore with ⟨hlt, c, hc, hsearch⟩
    have hcriteria' : c = .uidSearch criteria := by
      have hpast := hi search ⟨c, hc, .inr hsearch⟩
      have hc' := hc
      rw [hwhole] at hc'
      rcases getElem?_before hc' with ⟨_, hk⟩ | ⟨_, hk⟩ | ⟨hmem, _⟩
      · omega
      · omega
      · exact (hrest c hmem).2.2 hsearch
    rcases trail_before hd hlt with ⟨asked, hasked⟩
    have hwritten : asked.sent = some (.uidSearch criteria) := by
      rcases htrail.fits _ _ hasked with ⟨whole, hwhole', hdecided⟩
      rw [hc, Option.some.injEq] at hwhole'
      rw [← hwhole', hcriteria'] at hdecided
      rcases hdecided with ⟨hpass, _⟩ | ⟨sent, hsend, hsome⟩
      · cases hpass
      · cases hsend
        exact hsome
    have hsettled := htrail.settled _ _ _ _ hlt hasked hd (by rw [hwritten]; simp)
    rcases hsettled with ⟨text, htext⟩ | htolerated
    · refine ⟨hrole, ?_, search, asked, criteria, text, hlt, hcriteria, hasked, hwritten, htext,
        hne, hset⟩
      exact trailed_selected hwhole (fun c hc => (hrest c hc).1) htrail hd
        (hi i ⟨found, hcommand, .inl hfound⟩)
    · rw [hc, hcriteria'] at htolerated
      cases htolerated

/-! ## How a command is named on the wire -/

/-- A line that begins with a tag and one word. -/
def Opens (tag : String) (word : List Char) (bytes : Bytes) : Prop :=
  ∃ rest, bytes = Utf8.encode (tag.toList ++ ' ' :: word) ++ rest ∧
    (rest.head? = some 32 ∨ rest.head? = some 13)

/-- A word that does not expunge more than it names. -/
def Bounded (word : List Char) : Prop := word ≠ "EXPUNGE".toList ∧ word ≠ "CLOSE".toList

def firstWord (text : List Char) : List Char := text.takeWhile fun c => c ≠ ' '

theorem firstWord_append {lead : List Char} (h : ' ' ∈ lead) (rest : List Char) :
    firstWord (lead ++ rest) = firstWord lead := by
  induction lead with
  | nil => cases h
  | cons c lead ih =>
    by_cases hc : c = ' '
    · simp [firstWord, hc]
    · have hlead : ' ' ∈ lead := by
        rcases List.mem_cons.mp h with hspace | hlead
        · exact absurd hspace.symm hc
        · exact hlead
      simp only [firstWord, List.cons_append] at ih ⊢
      rw [List.takeWhile_cons_of_pos (by simpa using hc),
        List.takeWhile_cons_of_pos (by simpa using hc), ih hlead]

theorem firstWord_rest (text : List Char) :
    ∃ rest, text = firstWord text ++ rest ∧ (rest = [] ∨ rest.head? = some ' ') := by
  refine ⟨text.dropWhile fun c => c ≠ ' ', (List.takeWhile_append_dropWhile).symm, ?_⟩
  cases hrest : text.dropWhile fun c => c ≠ ' ' with
  | nil => exact .inl rfl
  | cons c rest =>
    right
    have hhead := List.head?_dropWhile_not (fun c => decide (c ≠ ' ')) text
    rw [hrest] at hhead
    simpa using hhead

instance (word : List Char) : Decidable (Bounded word) :=
  inferInstanceAs (Decidable (_ ∧ _))

theorem bounded_append {lead : List Char} (h : ' ' ∈ lead) (hlead : Bounded (firstWord lead))
    (rest : List Char) : Bounded (firstWord (lead ++ rest)) := by
  rw [firstWord_append h]
  exact hlead

section Rendering

variable [TextTables] [ImapDates]

variable {body : List Char} {auth : Smtp.SignIn} {capabilities : List (List Char)}
  {command : ImapCommand}

omit [ImapDates] in
theorem checkSet_ok {text : List Char} (h : checkSet set body = .ok text) :
    text = body := by
  unfold checkSet at h
  split at h
  · exact (Except.ok.inj h).symm
  · cases h

omit [TextTables] [ImapDates] in
theorem bounded_login (h : renderLogin auth capabilities = .ok body) :
    Bounded (firstWord body) := by
  unfold renderLogin at h
  split at h
  · split at h
    · cases h
      rw [String.toList_append]
      exact bounded_append (by decide) (by decide) _
    · cases h
  · split at h
    · cases h
    · split at h
      · cases h
        rw [List.append_assoc]
        exact bounded_append (by decide) (by decide) _
      · cases h

omit [TextTables] [ImapDates] in
theorem bounded_xoauth2 (h : renderXoauth2 auth = .ok body) : Bounded (firstWord body) := by
  unfold renderXoauth2 at h
  split at h
  · split at h
    · cases h
      rw [String.toList_append]
      exact bounded_append (by decide) (by decide) _
    · cases h
  · cases h

theorem bounded_append_command {mailbox : String} {flags : List String} {date : Option DateTime}
    {raw : Bytes} (h : renderAppend capabilities mailbox flags date raw = .ok body) :
    Bounded (firstWord body) := by
  unfold renderAppend at h
  split at h
  · cases h
  · cases h
    simp only [List.append_assoc]
    exact bounded_append (by decide) (by decide) _

theorem renderBody_bounded (h : renderBody auth capabilities command = .ok body) :
    Bounded (firstWord body) := by
  cases command with
  | login => exact bounded_login h
  | authenticateXoauth2 => exact bounded_xoauth2 h
  | append mailbox flags date raw => exact bounded_append_command h
  | select mailbox access resync =>
    cases h
    rw [List.append_assoc]
    cases access with
    | readWrite | readOnly => exact bounded_append (by decide) (by decide) _
  | uidFetch | uidStore | uidCopy | uidMove =>
    rw [checkSet_ok h]
    simp only [String.toList_append, List.append_assoc]
    exact bounded_append (by decide) (by decide) _
  | uidExpunge set =>
    rw [checkSet_ok h, String.toList_append]
    exact bounded_append (by decide) (by decide) _
  | notify mailboxes =>
    cases h
    rw [List.append_assoc]
    exact bounded_append (by decide) (by decide) _
  | enable | uidSearch =>
    cases h
    rw [String.toList_append]
    exact bounded_append (by decide) (by decide) _
  | rename | requireEmpty =>
    cases h
    rw [List.append_assoc]
    exact bounded_append (by decide) (by decide) _
  | search | uidStoreFound | uidExpungeFound | requireCapability | requireUidValidity => cases h
  | create | delete | subscribe | unsubscribe | getQuotaRoot =>
    cases h
    exact bounded_append (by decide) (by decide) _
  | _ =>
    cases h
    decide

variable {tag : String} {bytes : Bytes}

theorem render_opens {line : Bytes} (h : render auth capabilities command tag = .ok line)
    (more : Bytes) :
    ∃ word, Opens tag word (line ++ more) ∧ Bounded word := by
  unfold render at h
  split at h
  · cases h
  · rename_i body hbody
    split at h
    · cases h
    · cases h
      rcases firstWord_rest body with ⟨rest, hrest, hends⟩
      refine ⟨firstWord body, ⟨Utf8.encode (rest ++ ['\r', '\n']) ++ more, ?_, ?_⟩,
        renderBody_bounded hbody⟩
      · unfold Utf8.encode
        conv => lhs; rw [hrest]
        simp [List.flatMap_append, List.append_assoc]
      · rcases hends with rfl | hspace
        · exact .inr rfl
        · cases rest with
          | nil => cases hspace
          | cons c rest =>
            cases hspace
            exact .inl rfl

/-- Whatever is written for a command begins a line that is no bare `EXPUNGE` and no `CLOSE`. -/
theorem written_opens {session : Session} {index : Nat} {phase : Phase}
    (h : session.written index tag command = .ok (phase, bytes)) :
    ∃ word, Opens tag word bytes ∧ Bounded word := by
  unfold Session.written at h
  split at h
  · rcases map_eq_ok h with ⟨cut, hcut, hbytes⟩
    rcases map_eq_ok hcut with ⟨rendered, _, hparts⟩
    have hfirst : ∃ rest, cut.1 = Utf8.encode (tag ++ " UID SEARCH").toList ++ rest := by
      rw [← hparts]
      exact ⟨_, rfl⟩
    rcases hfirst with ⟨rest, hfirst⟩
    have hopens : Opens tag "UID".toList cut.1 := by
      refine ⟨Utf8.encode " SEARCH".toList ++ rest, ?_, .inl rfl⟩
      rw [hfirst, String.toList_append]
      unfold Utf8.encode
      simp [List.flatMap_append]
    split at hbytes
    · cases hbytes
      exact ⟨_, hopens, by decide⟩
    · cases hbytes
      exact ⟨_, hopens, by decide⟩
  · rcases map_eq_ok h with ⟨line, hline, hbytes⟩
    have hopens := render_opens hline
    split at hbytes
    · cases hbytes
      simpa using hopens []
    · cases hbytes
      simpa using hopens []
    · split at hbytes
      · cases hbytes
        simpa using hopens _
      · cases hbytes
        simpa using hopens []
    · cases hbytes
      simpa using hopens []

/-- What is written and expunges no more than it names: a line that is no bare `EXPUNGE` and no
`CLOSE`, the end of an `IDLE`, or what the server asked for of a message or of a search. -/
inductive Sparing (trail : List Decided) : Bytes → Prop where
  | line {tag : String} {word : List Char} {bytes : Bytes} (opens : Opens tag word bytes)
      (bounded : Bounded word) : Sparing trail bytes
  | done : Sparing trail (wire "DONE\r\n")
  | body {d : Decided} {mailbox : String} {flags : List String} {date : Option DateTime}
      {raw : Bytes} (hd : d ∈ trail) (hsent : d.sent = some (.append mailbox flags date raw)) :
      Sparing trail (raw ++ [13, 10])
  | part {d : Decided} {keys : List SearchKey} {tag : String} {cut : Bytes × List Bytes}
      {part : Bytes} (hd : d ∈ trail) (hsent : d.sent = some (.search keys))
      (hcut : Search.command tag keys d.knew.capabilities = .ok cut) (hpart : part ∈ cut.2) :
      Sparing trail part

omit [TextTables] [ImapDates] in
theorem own_bounded {what : String} (h : what ∈ ownCommands) : Bounded what.toList := by
  simp only [ownCommands, List.mem_cons, List.not_mem_nil, or_false] at h
  rcases h with rfl | rfl | rfl <;> decide

theorem utterance_sparing (h : Utterance auth trail bytes) :
    Sparing trail bytes := by
  cases h with
  | @own tag what hown =>
    have hopens : Opens tag what.toList (wire (tag ++ " " ++ what ++ "\r\n")) := by
      refine ⟨Utf8.encode "\r\n".toList, ?_, .inr rfl⟩
      unfold wire Utf8.encode
      simp [String.toList_append, List.flatMap_append]
    exact .line hopens (own_bounded hown)
  | done => exact .done
  | line hd hsent hauth hknew hwritten =>
    rcases written_opens hwritten with ⟨word, hopens, hbounded⟩
    exact .line hopens hbounded
  | body hd hsent => exact .body hd hsent
  | part hd hsent hcut hpart => exact .part hd hsent hcut hpart

end Rendering

/-! ## Whole runs -/

section Runs

variable [TextTables] [ImapDates] [ResponseParser]

theorem dealt_deletes {describe : Backend.Describe} {op : ProtoOp} {events : List IoReady}
    (hd : (backend.dealt describe op events)[i]? = some d) (hsent : d.sent = some command)
    (hdeletes : command.deletes = some set) :
    (∃ remotes, op = .destroy remotes ∧
      Entitled backend remotes (backend.dealt describe op events) i d set) ∨
    ∃ draft mailbox messageId,
      (op = .keepDraft draft mailbox messageId ∨ op = .dropDraft draft mailbox messageId) ∧
        Sought backend mailbox messageId (backend.dealt describe op events) i d set := by
  rcases backend.dealt_trailed describe op events with hnil | ⟨job, commands, hbegun, htrail⟩
  · rw [hnil] at hd
    cases hd
  · cases hop : Backend.mayDelete op with
    | false =>
      have hsafe := Backend.begun_harmless hop hbegun
      have hnone := trailed_harmless htrail hd hsent fun c hc => by
        rw [whole_eq] at hc
        exact (lead_harmless backend).append hsafe c (List.mem_of_getElem? hc)
      rw [hnone] at hdeletes
      cases hdeletes
    | true =>
      cases op with
      | destroy remotes =>
        rcases Backend.destroy_walk hbegun with ⟨uidvalidity, hdestroys⟩
        exact .inl ⟨remotes, rfl, destroys_entitled hdestroys htrail hd hsent hdeletes⟩
      | keepDraft draft mailbox messageId =>
        simp only [Backend.begun] at hbegun
        split at hbegun
        · cases hbegun
        · exact .inr ⟨draft, mailbox, messageId, .inl rfl,
            draft_sought hbegun htrail hd hsent hdeletes⟩
      | dropDraft draft mailbox messageId =>
        exact .inr ⟨draft, mailbox, messageId, .inr rfl,
          draft_sought hbegun htrail hd hsent hdeletes⟩
      | _ => cases hop

/-- Whatever the server sends, what is marked deleted or expunged is what was asked for, in Trash
or Spam once the server has reported the numbers to be the ones meant, or in Drafts what it found
of the draft; and nothing written expunges more than it names. -/
theorem expunges_only_asked (backend : Backend) (describe : Backend.Describe) (op : ProtoOp)
    (events : List IoReady) :
    (∀ (i : Nat) (d : Decided) (command : ImapCommand) (set : String),
      (backend.dealt describe op events)[i]? = some d → d.sent = some command →
        command.deletes = some set →
          (∃ remotes, op = .destroy remotes ∧
            Entitled backend remotes (backend.dealt describe op events) i d set) ∨
          ∃ draft mailbox messageId,
            (op = .keepDraft draft mailbox messageId ∨ op = .dropDraft draft mailbox messageId) ∧
              Sought backend mailbox messageId (backend.dealt describe op events) i d set) ∧
    ∀ turn ∈ (backend.talk describe op events).turns, ∀ bytes, turn.did = .wrote bytes →
      Utterance backend.build.signIn (backend.dealt describe op events) bytes ∧
        Sparing (backend.dealt describe op events) bytes := by
  refine ⟨fun i d command set hd hsent hdeletes => dealt_deletes hd hsent hdeletes,
    fun turn hturn bytes hdid => ?_⟩
  have hspoken := backend.talk_voices describe op events hturn hdid
  exact ⟨hspoken, utterance_sparing hspoken⟩

end Runs

section Examples

attribute [local instance] TextTables.ascii lineParser

local instance : ImapDates := ⟨fun _ => [], fun _ => []⟩

/-- A backend going on a connection with nothing selected, whose listing names a Trash. -/
def emptying : Backend where
  account := ⟨0⟩
  caps := ⟨⟨.localOnly, .localOnly, ⟨[("Trash", .trash)]⟩⟩, .absent, .absent, .jwz⟩
  build := ⟨⟨"ada", .password "secret", []⟩, none⟩
  session := none
  staged := none
  job := .idle
  left := some ⟨[], 0, none, []⟩
  resuming := true
  goingOn := none

def plain : Backend.Describe := ⟨fun _ => "", fun _ => ""⟩

def said (text : String) : IoReady := .bytes (wire text)

/-- What the server says to the deletion of message 5 of a Trash numbered 7. -/
def emptied : List IoReady :=
  [said "* CAPABILITY IMAP4rev1 UIDPLUS\r\na001 OK done\r\n",
    said "* OK [UIDVALIDITY 7] numbered\r\na002 OK selected\r\n"]

def deletion : ProtoOp := .destroy [.imap "Trash" 7 5]

theorem sent_of_map {f : ImapCommand → Option String}
    (h : (trail.map fun d => d.sent.bind f)[i]? = some (some set)) :
    ∃ d command, trail[i]? = some d ∧ d.sent = some command ∧ f command = some set := by
  rw [List.getElem?_map, Option.map_eq_some_iff] at h
  rcases h with ⟨d, hd, hf⟩
  rcases Option.bind_eq_some_iff.mp hf with ⟨command, hcommand, hset⟩
  exact ⟨d, command, hd, hcommand, hset⟩

theorem emptied_sent : ∃ d command,
    (emptying.dealt plain deletion emptied)[4]? = some d ∧ d.sent = some command ∧
      command.deletes = some "5" :=
  sent_of_map (by decide +kernel)

/-- A message of the Trash is deleted once the server has said it is still the one meant, and all
that is written spares the others. -/
theorem emptied_asked :
    (∃ d command, (emptying.dealt plain deletion emptied)[4]? = some d ∧
      d.sent = some command ∧ command.deletes = some "5" ∧
        ∃ remotes, deletion = .destroy remotes ∧
          Entitled emptying remotes (emptying.dealt plain deletion emptied) 4 d "5") ∧
    ∀ turn ∈ (emptying.talk plain deletion emptied).turns, ∀ bytes, turn.did = .wrote bytes →
      Sparing (emptying.dealt plain deletion emptied) bytes := by
  have hasked := expunges_only_asked emptying plain deletion emptied
  rcases emptied_sent with ⟨d, command, hd, hsent, hset⟩
  refine ⟨⟨d, command, hd, hsent, hset, ?_⟩, fun turn hturn bytes hdid =>
    (hasked.2 turn hturn bytes hdid).2⟩
  rcases hasked.1 4 d command "5" hd hsent hset with
    hentitled | ⟨draft, mailbox, messageId, hkeep | hdrop, _⟩
  · exact hentitled
  · cases hkeep
  · cases hdrop

end Examples

end Mailo.Proto.Imap
