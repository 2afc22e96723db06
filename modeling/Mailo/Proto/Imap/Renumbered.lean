import Mailo.Proto.Imap.Deleting

/-!
# What is done by old numbers

A mailbox that was numbered anew says so when it is selected. A deletion compares the number
before it names a message, and nothing else that changes, moves, copies or fetches one does.
-/

namespace Mailo.Proto.Imap

open Domain Library Proto.Search

/-- The set of UIDs a command changes, moves or copies messages by, or fetches their bodies by. -/
def ImapCommand.acts : ImapCommand → Option String
  | .uidStore set _ _ | .uidCopy set _ | .uidMove set _ | .uidExpunge set => some set
  | .uidFetch set items =>
    if "(UID BODY.PEEK[".toList.isPrefixOf items.toList then some set else none
  | _ => none

/-- Nothing is done to messages by addresses with another number than the one the server last
reported. -/
def KeepsOff (remotes : List RemoteRef) (trail : List Decided) : Prop :=
  ∀ (i : Nat) (d : Decided) (command : ImapCommand) (set : String) (now : UInt32),
    trail[i]? = some d → d.sent = some command → command.acts = some set →
      reportedUidvalidity d.knew.untagged = some now →
        ∀ mailbox uidvalidity uid, RemoteRef.imap mailbox uidvalidity uid ∈ remotes →
          uidvalidity = now

/-- The server reports no other number once it has answered the selection. -/
def Steady (trail : List Decided) : Prop :=
  ∀ (i j : Nat) (s d e : Decided) (mailbox : String) (access : Access) (resync : Option Resync)
    (command : ImapCommand) (now : UInt32),
    trail[i]? = some s → s.sent = some (.select mailbox access resync) →
      trail[i + 1]? = some d → i < j → trail[j]? = some e → e.sent = some command →
        command.acts ≠ none → reportedUidvalidity e.knew.untagged = some now →
          reportedUidvalidity d.knew.untagged = some now

def Unbroken (text : String) : Prop := text.toList.any isLineBreak = false

/-- Labels that can be written in one line. -/
def AllUnbroken (labels : List String) : Prop := ∀ label ∈ labels, Unbroken label

instance (text : String) : Decidable (Unbroken text) := inferInstanceAs (Decidable (_ = _))

instance (labels : List String) : Decidable (AllUnbroken labels) :=
  inferInstanceAs (Decidable (∀ label ∈ labels, Unbroken label))

/-- A change of labels that some server is given: one with a label that has a keyword, or one
whose first line can be written. -/
def AsksLabels (add remove : List String) : Prop :=
  (∃ label ∈ add ++ remove, labelKeyword label ≠ none) ∨ add ≠ [] ∧ AllUnbroken add ∨
    add = [] ∧ remove ≠ [] ∧ AllUnbroken remove

/-- An operation that acts on messages by their UIDs and compares no number first. -/
def Unguarded : ProtoOp → Prop
  | .fetchBody remotes | .setFlag remotes _ | .addKeyword remotes _ | .setMailbox remotes _ =>
    uidsOf remotes ≠ []
  | .fetchSections remote sections =>
    uidsOf [remote] ≠ [] ∧ sections ≠ [] ∧ sections.all isSection = true
  | .setFlags remotes read star => uidsOf remotes ≠ [] ∧ (read ≠ none ∨ star ≠ none)
  | .setLabels remotes add remove => uidsOf remotes ≠ [] ∧ AsksLabels add remove
  | .file remotes folder | .copy remotes folder =>
    uidsOf remotes ≠ [] ∧ (sameFolder (mailboxPath remotes) folder = false ∨ Unbroken folder)
  | _ => False

/-! ## Labels in a line -/

theorem any_intercalate (sep : List Char) (hsep : sep.any isLineBreak = false)
    (parts : List (List Char)) :
    (sep.intercalate parts).any isLineBreak = parts.any fun part => part.any isLineBreak := by
  induction parts with
  | nil => rfl
  | cons part parts ih =>
    cases parts with
    | nil => simp
    | cons next rest =>
      rw [List.intercalate_cons_cons, List.any_append, List.any_append, ih, hsep, Bool.or_false]
      rfl

theorem any_quoted (label : List Char) : (quoted label).any isLineBreak = label.any isLineBreak := by
  unfold quoted
  have hopen : isLineBreak '"' = false := by decide
  have hslash : isLineBreak '\\' = false := by decide
  have hone : ∀ c : Char, (if c = '\\' ∨ c = '"' then ['\\', c] else [c]).any isLineBreak =
      isLineBreak c := by
    intro c
    split
    · simp [hslash]
    · simp
  simp only [List.any_cons, List.cons_append, List.any_append, List.any_flatMap, hone, hopen,
    List.any_nil, Bool.false_or, Bool.or_false]

theorem any_quotedLabel (label : String) :
    (quotedLabel label).toList.any isLineBreak = label.toList.any isLineBreak := by
  unfold quotedLabel
  split
  · rfl
  · rw [String.toList_ofList, any_quoted]

/-- The line that stores labels is broken by the labels alone. -/
theorem any_labelStore (set sign : String) (labels : List String)
    (hsign : sign.toList.any isLineBreak = false) :
    ∃ what, labelStore set sign labels = .uidStore set what false ∧
      (what.toList.any isLineBreak = labels.any fun label => label.toList.any isLineBreak) := by
  refine ⟨_, rfl, ?_⟩
  have hopen : " (".toList.any isLineBreak = false := by decide
  have hclose : ")".toList.any isLineBreak = false := by decide
  have hname : "X-GM-LABELS".toList.any isLineBreak = false := by decide
  have hspace : " ".toList.any isLineBreak = false := by decide
  simp only [String.toList_append, List.any_append, hsign, hname, hopen, hclose, Bool.false_or,
    Bool.or_false]
  rw [String.toList_intercalate, any_intercalate _ hspace, List.map_map, List.any_map]
  congr 1
  funext label
  exact any_quotedLabel label

/-! ## What acts on nothing -/

/-- A walk that acts on nothing: nothing in it does, or the first command of it that does cannot be
written. -/
inductive Barred : List ImapCommand → Prop where
  | idle {commands : List ImapCommand}
      (h : ∀ command ∈ commands, command.acts = none ∧ command.isFound = false) : Barred commands
  | broken (mailbox : String) (access : Access) (set what : String) (tolerate : Bool)
      (rest : List ImapCommand) (h : what.toList.any isLineBreak = true) :
      Barred (selecting mailbox access :: .uidStore set what tolerate :: rest)

variable {backend : Backend} {commands : List ImapCommand} {trail : List Decided} {i : Nat}
  {d : Decided} {command : ImapCommand} {job : Job} {remotes : List RemoteRef}

theorem lead_idle (backend : Backend) :
    ∀ command ∈ lead backend, command.acts = none ∧ command.isFound = false := by
  intro command hcommand
  unfold lead at hcommand
  split at hcommand
  · cases hcommand
  · simp only [List.mem_cons, List.not_mem_nil, or_false] at hcommand
    rcases hcommand with rfl | rfl
    · unfold Factory.mechanism
      split
      · exact ⟨rfl, rfl⟩
      · exact ⟨rfl, rfl⟩
    · exact ⟨rfl, rfl⟩

theorem sent_at (htrail : Session.Trailed commands trail) (hd : trail[i]? = some d)
    (hsent : d.sent = some command) (hfound : ∀ c ∈ commands, c.isFound = false) :
    commands[i]? = some command := by
  rcases (htrail.fits i d hd).sent hsent with hcommand | ⟨found, hcommand, hisFound, _⟩
  · exact hcommand
  · rw [hfound found (List.mem_of_getElem? hcommand)] at hisFound
    cases hisFound

theorem barred_acts (hbarred : Barred commands)
    (htrail : Session.Trailed (backend.whole commands) trail) (hd : trail[i]? = some d)
    (hsent : d.sent = some command) : command.acts = none := by
  rw [whole_eq] at htrail
  cases hbarred with
  | idle h =>
    have hall : ∀ c ∈ lead backend ++ commands, c.acts = none ∧ c.isFound = false := by
      intro c hc
      rcases List.mem_append.mp hc with hlead | hwalk
      · exact lead_idle backend c hlead
      · exact h c hwalk
    by_contra hacts
    have hcommand := sent_at htrail hd hsent fun c hc => (hall c hc).2
    exact hacts (hall command (List.mem_of_getElem? hcommand)).1
  | broken mailbox access set what tolerate rest h =>
    -- Whatever acts stands behind a line that was never written.
    have hstore : (lead backend ++ selecting mailbox access :: .uidStore set what tolerate ::
        rest)[(lead backend).length + 1]? = some (.uidStore set what tolerate) := by
      rw [List.getElem?_append_right (by omega)]
      simp
    have hfirst : trail.length ≤ (lead backend).length + 1 := by
      by_contra hlong
      have hat := List.getElem?_eq_getElem (by omega : (lead backend).length + 1 < trail.length)
      rcases htrail.fits _ _ hat with ⟨c, hc, hdecided⟩
      rw [hstore, Option.some.injEq] at hc
      rw [← hc] at hdecided
      rcases hdecided with ⟨hpass, _⟩ | ⟨sent, hsend, hwritten⟩
      · cases hpass
      · cases hsend
        have hunbroken := htrail.unbroken _ (List.mem_of_getElem? hat) set what tolerate hwritten
        rw [h] at hunbroken
        cases hunbroken
    have hi := (List.getElem?_eq_some_iff.mp hd).1
    rcases (htrail.fits i d hd).sent hsent with hcommand | ⟨found, hcommand, hfound, _⟩
    · rcases getElem?_before hcommand with ⟨hmem, _⟩ | ⟨rfl, _⟩ | ⟨_, hpast⟩
      · exact (lead_idle backend command hmem).1
      · rfl
      · omega
    · rcases getElem?_before hcommand with ⟨hmem, _⟩ | ⟨rfl, _⟩ | ⟨_, hpast⟩
      · rw [(lead_idle backend found hmem).2] at hfound
        cases hfound
      · cases hfound
      · omega

/-- Where nothing acts, no number is needed. -/
theorem idle_agrees (h : ∀ (i : Nat) (d : Decided) (command : ImapCommand), trail[i]? = some d →
    d.sent = some command → command.acts = none) : KeepsOff remotes trail ∧ Steady trail := by
  constructor
  · intro i d command set now hd hsent hacts
    rw [h i d command hd hsent] at hacts
    cases hacts
  · intro i j s d e mailbox access resync command now _ _ _ _ he hsent hacts
    exact absurd (h j e command he hsent) hacts

theorem barred_fetch {made : Job} {failing : Option Job} {items : String}
    (hitems : "(UID BODY.PEEK[".toList.isPrefixOf items.toList = false)
    (h : Backend.fetch made failing remotes items = .walk job commands) : Barred commands := by
  unfold Backend.fetch at h
  split at h
  · cases h
  · cases h
    apply Barred.idle
    intro command hcommand
    simp only [List.mem_cons, List.not_mem_nil, or_false] at hcommand
    rcases hcommand with rfl | rfl
    · exact ⟨rfl, rfl⟩
    · unfold ImapCommand.acts
      dsimp only
      rw [if_neg (by rw [hitems]; simp)]
      exact ⟨rfl, rfl⟩

theorem uidSet_none (h : uidsOf remotes = []) : uidSet remotes = none := by
  unfold uidSet
  rw [h]
  rfl

theorem over_none (h : uidsOf remotes = []) (walk : String → Begun) :
    Backend.over remotes walk = .applied := by
  unfold Backend.over
  rw [uidSet_none h]

theorem uidSet_some (h : uidsOf remotes ≠ []) : uidSet remotes = some (setText (uidsOf remotes)) := by
  unfold uidSet
  have hempty : (uidsOf remotes).isEmpty = false := by simpa using h
  simp [hempty]

theorem over_some (h : uidsOf remotes ≠ []) (walk : String → Begun) :
    Backend.over remotes walk = walk (setText (uidsOf remotes)) := by
  unfold Backend.over
  rw [uidSet_some h]

theorem barred_select (mailbox : String) (access : Access) : Barred [selecting mailbox access] := by
  apply Barred.idle
  intro command hcommand
  rw [List.mem_singleton.mp hcommand]
  exact ⟨rfl, rfl⟩

theorem barred_labels {set sign mailbox : String} {access : Access} {labels : List String}
    {rest : List ImapCommand} (hsign : sign.toList.any isLineBreak = false)
    (h : ¬ AllUnbroken labels) :
    Barred (selecting mailbox access :: labelStore set sign labels :: rest) := by
  rcases any_labelStore set sign labels hsign with ⟨what, hstore, hany⟩
  rw [hstore]
  apply Barred.broken
  rw [hany, List.any_eq_true]
  by_contra hnone
  apply h
  intro label hlabel
  by_contra hbroken
  exact hnone ⟨label, hlabel, by simpa [Unbroken] using hbroken⟩

theorem barred_setLabels {add remove : List String} (hlabels : ¬ AsksLabels add remove)
    (h : backend.setLabels remotes add remove = .walk job commands) : Barred commands := by
  unfold AsksLabels at hlabels
  push Not at hlabels
  rcases hlabels with ⟨hkeyword, hadd, hremove⟩
  unfold Backend.setLabels at h
  split at h
  · have hnone : ∀ labels, labels ⊆ add ++ remove → labels.filterMap labelKeyword = [] := by
      intro labels hsub
      rw [List.filterMap_eq_nil_iff]
      intro label hlabel
      exact hkeyword label (hsub hlabel)
    unfold Backend.storeLabelKeywords at h
    rw [hnone add (List.subset_append_left _ _), hnone remove (List.subset_append_right _ _)] at h
    unfold Backend.over at h
    split at h
    · cases h
    · cases h
  · cases h
  · unfold Backend.over at h
    split at h
    · cases h
    · cases h
      by_cases hempty : add = []
      · subst hempty
        by_cases hnone : remove = []
        · subst hnone
          exact barred_select _ _
        · have hrest : remove.isEmpty = false := by simpa using hnone
          simp only [List.isEmpty_nil, if_true, hrest, List.nil_append, Bool.false_eq_true,
            if_false, List.cons_append]
          exact barred_labels (by decide) (hremove rfl hnone)
      · have hrest : add.isEmpty = false := by simpa using hempty
        simp only [hrest, Bool.false_eq_true, if_false, List.cons_append, List.nil_append]
        exact barred_labels (by decide) (hadd hempty)

/-- A change of folder that is none, or whose line cannot be written. -/
theorem barred_file {folder : String} (hsame : sameFolder (mailboxPath remotes) folder = true)
    (hbroken : ¬ Unbroken folder) (h : backend.file remotes folder = .walk job commands) :
    Barred commands := by
  unfold Backend.file Backend.over at h
  split at h
  · cases h
  · split at h
    · cases h
    · cases h
      exact barred_labels (by decide) fun hall => hbroken (hall folder (.head _))
    · unfold Backend.moveInto at h
      dsimp only at h
      rw [if_pos hsame] at h
      cases h

theorem barred_copy {folder : String} (hsame : sameFolder (mailboxPath remotes) folder = true)
    (hbroken : ¬ Unbroken folder) (h : backend.copy remotes folder = .walk job commands) :
    Barred commands := by
  unfold Backend.copy Backend.over at h
  split at h
  · cases h
  · split at h
    · cases h
    · cases h
      exact barred_labels (by decide) fun hall => hbroken (hall folder (.head _))
    · unfold Backend.copyInto at h
      dsimp only at h
      rw [if_pos hsame] at h
      cases h

theorem fetch_none {made : Job} {failing : Option Job} {items : String}
    (huids : uidsOf remotes = []) : Backend.fetch made failing remotes items ≠ .walk job commands := by
  unfold Backend.fetch
  rw [uidSet_none huids]
  intro h
  cases h

section Begin

variable [TextTables]

/-- An operation on messages that is neither a deletion nor unguarded acts on nothing. -/
theorem guarded_barred {describe : Backend.Describe} {op : ProtoOp}
    (hop : op.messages = some remotes) (hguarded : ¬ Unguarded op)
    (hdestroy : ∀ named, op ≠ .destroy named)
    (h : backend.begun describe op = .walk job commands) : Barred commands := by
  cases op with
  | fetchHeaders named => exact barred_fetch (by decide) h
  | fetchStructure named => exact barred_fetch (by decide) h
  | fetchBody named =>
    exact absurd h (fetch_none (not_not.mp hguarded))
  | fetchSections remote sections =>
    have hsections : Backend.fetchSections describe remote sections = .walk job commands := h
    unfold Backend.fetchSections at hsections
    split at hsections
    · cases hsections
    · rename_i hvalid
      simp only [Bool.or_eq_true, List.isEmpty_iff, Bool.not_eq_eq_eq_not, Bool.not_true, not_or,
        Bool.not_eq_false] at hvalid
      have huids : uidsOf [remote] = [] := by
        by_contra hne
        exact hguarded ⟨hne, hvalid.1, hvalid.2⟩
      exact absurd hsections (fetch_none huids)
  | setFlags named read star =>
    have hflags : backend.setFlags named read star = .walk job commands := h
    unfold Backend.setFlags at hflags
    by_cases huids : uidsOf named = []
    · rw [over_none huids] at hflags
      cases hflags
    · have hnone : read = none ∧ star = none := by
        by_contra hsome
        rw [not_and_or] at hsome
        exact hguarded ⟨huids, hsome⟩
      rw [hnone.1, hnone.2, over_some huids] at hflags
      cases hflags
      exact barred_select _ _
  | setFlag named hue =>
    have hflag : backend.setFlag named hue = .walk job commands := h
    unfold Backend.setFlag at hflag
    split at hflag
    rw [over_none (not_not.mp hguarded)] at hflag
    cases hflag
  | addKeyword named keyword =>
    have hkeyword := h
    simp only [Backend.begun] at hkeyword
    rw [over_none (not_not.mp hguarded)] at hkeyword
    cases hkeyword
  | setMailbox named role =>
    have hmailbox : backend.setMailbox named role = .walk job commands := h
    unfold Backend.setMailbox at hmailbox
    dsimp only at hmailbox
    rw [over_none (not_not.mp hguarded)] at hmailbox
    cases hmailbox
  | setLabels named add remove =>
    have hlabels : backend.setLabels named add remove = .walk job commands := h
    by_cases huids : uidsOf named = []
    · unfold Backend.setLabels Backend.storeLabelKeywords at hlabels
      simp only [over_none huids] at hlabels
      split at hlabels
      · cases hlabels
      · cases hlabels
      · cases hlabels
    · exact barred_setLabels (fun hasks => hguarded ⟨huids, hasks⟩) hlabels
  | file named folder =>
    have hfile : backend.file named folder = .walk job commands := h
    by_cases huids : uidsOf named = []
    · unfold Backend.file at hfile
      dsimp only at hfile
      rw [over_none huids] at hfile
      cases hfile
    · have hneither : ¬ (sameFolder (mailboxPath named) folder = false ∨ Unbroken folder) :=
        fun hone => hguarded ⟨huids, hone⟩
      rw [not_or, Bool.not_eq_false] at hneither
      exact barred_file hneither.1 hneither.2 hfile
  | copy named folder =>
    have hcopy : backend.copy named folder = .walk job commands := h
    by_cases huids : uidsOf named = []
    · unfold Backend.copy at hcopy
      dsimp only at hcopy
      rw [over_none huids] at hcopy
      cases hcopy
    · have hneither : ¬ (sameFolder (mailboxPath named) folder = false ∨ Unbroken folder) :=
        fun hone => hguarded ⟨huids, hone⟩
      rw [not_or, Bool.not_eq_false] at hneither
      exact barred_copy hneither.1 hneither.2 hcopy
  | expunge named => cases h
  | destroy named => exact absurd rfl (hdestroy named)
  | _ => cases hop

end Begin

/-! ## What a deletion compares -/

variable {uidvalidity : UInt32}

/-- A deletion keeps off a mailbox numbered anew exactly while the server reports no other number
after the one it was let in by. -/
theorem destroys_steady (h : backend.Destroys remotes uidvalidity commands) (hne : remotes ≠ [])
    (htrail : Session.Trailed (backend.whole commands) trail) :
    KeepsOff remotes trail ↔ Steady trail := by
  have hwhole := destroys_whole h
  generalize hbefore : lead backend ++ [.capability] = before at hwhole
  have hidle : ∀ c ∈ before, c.acts = none ∧ c.isFound = false ∧ c.selects = none := by
    intro c hc
    rw [← hbefore] at hc
    rcases List.mem_append.mp hc with hlead | hone
    · refine ⟨(lead_idle backend c hlead).1, (lead_idle backend c hlead).2, ?_⟩
      unfold lead at hlead
      split at hlead
      · cases hlead
      · simp only [List.mem_cons, List.not_mem_nil, or_false] at hlead
        rcases hlead with rfl | rfl
        · unfold Factory.mechanism
          split
          · rfl
          · rfl
        · rfl
    · rw [List.mem_singleton.mp hone]
      exact ⟨rfl, rfl, rfl⟩
  have hfound : ∀ c ∈ backend.whole commands, c.isFound = false := by
    intro c hc
    rw [hwhole] at hc
    rcases List.mem_append.mp hc with hmem | hmem
    · exact (hidle c hmem).2.1
    · simp only [checked, List.mem_cons, List.not_mem_nil, or_false] at hmem
      rcases hmem with rfl | rfl | rfl | rfl | rfl
      · rfl
      · rfl
      · rfl
      · rfl
      · rfl
  -- The selection and the guard after it.
  have hselect : ∀ (j : Nat) (s : Decided) (mailbox : String) (access : Access)
      (resync : Option Resync), trail[j]? = some s →
        s.sent = some (.select mailbox access resync) → j = before.length := by
    intro j s mailbox access resync hs hsent
    have hc := sent_at htrail hs hsent hfound
    rw [hwhole] at hc
    rcases getElem?_before hc with ⟨hmem, _⟩ | ⟨_, hj⟩ | ⟨hmem, _⟩
    · have hnone := (hidle _ hmem).2.2
      cases hnone
    · exact hj
    · have hnone := checked_selects remotes uidvalidity _ hmem
      cases hnone
  have hguard : ∀ g, trail[before.length + 1]? = some g →
      reportedUidvalidity g.knew.untagged = some uidvalidity := by
    intro g hg
    refine guard_passed htrail ?_ hg
    rw [hwhole]
    exact getElem?_past before _ _ 0
  have hpast : ∀ (j : Nat) (e : Decided) (command : ImapCommand), trail[j]? = some e →
      e.sent = some command → command.acts ≠ none → before.length + 1 < j := by
    intro j e command he hsent hacts
    have hc := sent_at htrail he hsent hfound
    rw [hwhole] at hc
    rcases getElem?_before hc with ⟨hmem, _⟩ | ⟨rfl, _⟩ | ⟨_, hj⟩
    · exact absurd (hidle command hmem).1 hacts
    · exact absurd rfl hacts
    · by_contra hle
      have hplace : j = before.length + 1 + 0 := by omega
      rw [hplace, getElem?_past] at hc
      cases hc
      exact hacts rfl
  constructor
  · intro hkeeps i j s d e mailbox access resync command now hs hsent hd _ he hacted hacts hnow
    rw [hselect i s mailbox access resync hs hsent] at hd
    rcases Option.ne_none_iff_exists'.mp hacts with ⟨set, hset⟩
    rcases List.exists_mem_of_ne_nil remotes hne with ⟨remote, hremote⟩
    rcases h.numbered remote hremote with ⟨path, uid, rfl, _⟩
    rw [hguard d hd, hkeeps j e command set now he hacted hset hnow path uidvalidity uid hremote]
  · intro hsteady i d command set now hd hsent hacts hnow path number uid hremote
    have hacts' : command.acts ≠ none := by
      rw [hacts]
      exact Option.some_ne_none _
    have hi := hpast i d command hd hsent hacts'
    rcases trail_before hd (by omega : before.length < i) with ⟨s, hs⟩
    rcases trail_before hd hi with ⟨g, hg⟩
    have hwritten : s.sent = some (selecting (mailboxPath remotes) .readWrite) := by
      rcases htrail.fits _ _ hs with ⟨c, hc, hdecided⟩
      rw [hwhole, List.getElem?_append_right (le_refl _), Nat.sub_self] at hc
      cases hc
      rcases hdecided with ⟨hpass, _⟩ | ⟨sent, hsend, hsome⟩
      · cases hpass
      · cases hsend
        exact hsome
    have hsame := hsteady _ i s g d _ _ _ command now hs hwritten hg (by omega) hd hsent hacts' hnow
    rw [hguard g hg, Option.some.injEq] at hsame
    rcases h.numbered _ hremote with ⟨mailbox, other, heq, _⟩
    cases heq
    exact hsame

/-! ## What is written by old numbers -/

theorem unbroken_of_atom {c : Char} (h : isAtomChar c = true) : isLineBreak c = false := by
  cases hbreak : isLineBreak c with
  | false => rfl
  | true =>
    simp only [isLineBreak, Bool.or_eq_true, beq_iff_eq] at hbreak
    rcases hbreak with (rfl | rfl) | hzero
    · cases h
    · cases h
    · simp [isAtomChar, hzero] at h

theorem labelKeyword_unbroken {label word : String} (h : labelKeyword label = some word) :
    Unbroken word := by
  cases htag : isTagName (Text.trim label.toList) with
  | true =>
    rcases labelKeyword_tag htag with ⟨tag, hmem, hword⟩
    rw [hword, Option.some.injEq] at h
    rw [← h]
    have hall : ∀ tag ∈ thunderbirdTags, tag.1.toList.any isLineBreak = false := by decide
    exact hall tag hmem
  | false =>
    rw [labelKeyword_plain htag] at h
    split at h
    · rw [← Option.some.inj h]
      unfold Unbroken
      rw [String.toList_ofList, List.any_eq_false]
      intro c hc
      rw [unbroken_of_atom (plain_of_isKept ((single_collapsed label).chars c hc)).1]
      simp
    · cases h

theorem keywords_unbroken (labels : List String) : AllUnbroken (labels.filterMap labelKeyword) := by
  intro word hword
  rcases List.mem_filterMap.mp hword with ⟨label, _, hlabel⟩
  exact labelKeyword_unbroken hlabel

theorem unbroken_intercalate {words : List String} (h : AllUnbroken words) :
    (" ".intercalate words).toList.any isLineBreak = false := by
  have hspace : " ".toList.any isLineBreak = false := by decide
  rw [String.toList_intercalate, any_intercalate _ hspace, List.any_map, List.any_eq_false]
  intro word hword
  rw [Function.comp_apply, h word hword]
  simp

theorem isSection_unbroken {part : Section} (h : isSection part = true) : Unbroken part.asStr := by
  have hnumbers : ∀ numbers : List Char, (numbers.splitOn '.').all isPartNumber = true →
      numbers.any isLineBreak = false := by
    intro numbers hall
    have hdot : ['.'].any isLineBreak = false := by decide
    have hparts : ['.'].intercalate (numbers.splitOn '.') = numbers := List.intercalate_splitOn '.'
    rw [← hparts, any_intercalate _ hdot, List.any_eq_false]
    intro digits hdigits
    have hnumber := List.all_eq_true.mp hall digits hdigits
    unfold isPartNumber at hnumber
    simp only [Bool.and_eq_true] at hnumber
    have hunbroken : digits.any isLineBreak = false := by
      rw [List.any_eq_false]
      intro c hc
      have hdigit := List.all_eq_true.mp hnumber.1.2 c hc
      rw [isAsciiDigit_eq] at hdigit
      rw [isLineBreak_of_printable (printable_of_digit hdigit)]
      simp
    rw [hunbroken]
    simp
  unfold isSection at h
  dsimp only at h
  unfold Unbroken
  split at h
  · rename_i hheader
    rw [hheader]
    decide
  · rw [Bool.and_eq_true] at h
    split at h
    · rename_i hmime
      have htaken := hnumbers _ h.2
      rw [← List.take_append_drop (part.asStr.toList.length - 5) part.asStr.toList,
        List.any_append, htaken, hmime]
      decide
    · exact hnumbers _ h.2

/-- A command that acts and is written in one line. -/
structure Writable [TextTables] [ImapDates] (command : ImapCommand) : Prop where
  acts : command.acts ≠ none
  line : Session.isLine command = true
  sends : ∀ commands knew, Session.decision commands knew 1 command = .send command
  renders : ∀ tag, ∃ line, render goer [] command tag = .ok line

section Writing

variable [TextTables] [ImapDates]

theorem writable_store (huids : uidsOf remotes ≠ []) {what : String} (hwhat : Unbroken what)
    (tolerate : Bool) : Writable (.uidStore (setText (uidsOf remotes)) what tolerate) where
  acts := Option.some_ne_none _
  line := rfl
  sends _ _ := rfl
  renders tag := render_store goer [] huids hwhat tolerate tag

theorem writable_copy (huids : uidsOf remotes ≠ []) (mailbox : String) :
    Writable (.uidCopy (setText (uidsOf remotes)) mailbox) where
  acts := Option.some_ne_none _
  line := rfl
  sends _ _ := rfl
  renders tag := by
    have hverb : Printable "UID COPY ".toList := by decide
    have hrest : (' ' :: wireName mailbox).any isLineBreak = false :=
      (Printable.cons (by decide) (wireName_printable mailbox)).unbroken
    apply render_over goer [] huids ?_ hverb hrest tag
    simp only [renderBody, String.toList_append, List.append_assoc]
    rfl

theorem writable_fetch (huids : uidsOf remotes ≠ []) {items : String}
    (hbody : "(UID BODY.PEEK[".toList.isPrefixOf items.toList = true) (hitems : Unbroken items) :
    Writable (.uidFetch (setText (uidsOf remotes)) items) where
  acts := by
    unfold ImapCommand.acts
    dsimp only
    rw [if_pos hbody]
    exact Option.some_ne_none _
  line := rfl
  sends _ _ := rfl
  renders tag := by
    have hverb : Printable "UID FETCH ".toList := by decide
    have hrest : (' ' :: items.toList).any isLineBreak = false := by
      rw [List.any_cons, hitems]
      rfl
    apply render_over goer [] huids ?_ hverb hrest tag
    simp only [renderBody, String.toList_append, List.append_assoc]
    rfl

/-- What a server can do that no other operation asks. -/
def keeping (labels : ServerLabels) (archive : ArchiveMeans) : Caps :=
  ⟨⟨labels, archive, ⟨[]⟩⟩, .absent, .absent, .jwz⟩

/-- A walk that selects a mailbox and then acts in it. -/
def ActsNext (op : ProtoOp) (describe : Backend.Describe) : Prop :=
  ∃ caps job mailbox access first rest,
    (connected caps).begun describe op = .walk job (selecting mailbox access :: first :: rest) ∧
      Writable first

variable {describe : Backend.Describe}

theorem flagStore_next (huids : uidsOf remotes ≠ []) {sign : String} {words : List String}
    (hsign : sign.toList.any isLineBreak = false) (h : AllUnbroken words) :
    Writable (flagStore (setText (uidsOf remotes)) sign words) := by
  apply writable_store huids
  unfold Unbroken
  have hopen : " (".toList.any isLineBreak = false := by decide
  have hclose : ")".toList.any isLineBreak = false := by decide
  simp only [String.toList_append, List.any_append, hsign, hopen, hclose, unbroken_intercalate h,
    Bool.false_or]

/-- Of what is added and taken away, the first that is anything is written first. -/
theorem stores_next (huids : uidsOf remotes ≠ []) {added removed : List String}
    (hadded : AllUnbroken added) (hremoved : AllUnbroken removed)
    (h : added ≠ [] ∨ removed ≠ []) : ∃ first rest,
      storeSome (setText (uidsOf remotes)) "+FLAGS" added ++
        storeSome (setText (uidsOf remotes)) "-FLAGS" removed = first :: rest ∧ Writable first := by
  cases added with
  | cons word added => exact ⟨_, _, rfl, flagStore_next huids (by decide) hadded⟩
  | nil =>
    cases removed with
    | cons word removed => exact ⟨_, _, rfl, flagStore_next huids (by decide) hremoved⟩
    | nil =>
      rcases h with h | h
      · exact absurd rfl h
      · exact absurd rfl h

theorem flags_next (huids : uidsOf remotes ≠ []) {read : Option ReadState} {star : Option Star}
    (h : read ≠ none ∨ star ≠ none) : ActsNext (.setFlags remotes read star) describe := by
  have hbegun : (connected (keeping .localOnly .localOnly)).begun describe
      (.setFlags remotes read star) =
        (connected (keeping .localOnly .localOnly)).setFlags remotes read star := rfl
  have hparts : ∃ added removed, (AllUnbroken added ∧ AllUnbroken removed) ∧
      (added ≠ [] ∨ removed ≠ []) ∧
      (connected (keeping .localOnly .localOnly)).setFlags remotes read star =
        Backend.over remotes fun set => .walk .applied (selecting (mailboxPath remotes) .readWrite ::
          storeSome set "+FLAGS" added ++ storeSome set "-FLAGS" removed) := by
    revert h
    rcases read with _ | _ | _ <;> rcases star with _ | _ | _
    · exact fun h => absurd h (by decide)
    all_goals exact fun _ => ⟨_, _, by decide, by decide, rfl⟩
  rcases hparts with ⟨added, removed, hunbroken, hsome, hwalk⟩
  refine ⟨keeping .localOnly .localOnly, .applied, mailboxPath remotes, .readWrite, ?_⟩
  rw [hbegun, hwalk, over_some huids]
  rcases stores_next huids hunbroken.1 hunbroken.2 hsome with ⟨first, rest, hstores, hwritable⟩
  exact ⟨first, rest, by rw [List.cons_append, hstores], hwritable⟩

theorem mailbox_next (huids : uidsOf remotes ≠ []) (role : MailboxRole) :
    ActsNext (.setMailbox remotes role) describe := by
  have hbegun : (connected (keeping .localOnly .dropInbox)).begun describe
      (.setMailbox remotes role) =
        (connected (keeping .localOnly .dropInbox)).setMailbox remotes role := rfl
  refine ⟨keeping .localOnly .dropInbox, .applied, mailboxPath remotes, .readWrite, ?_⟩
  rw [hbegun]
  unfold Backend.setMailbox
  dsimp only
  rw [over_some huids]
  cases role with
  | inbox => exact ⟨_, _, rfl, writable_store huids (by decide) false⟩
  | archive => exact ⟨_, _, rfl, writable_store huids (by decide) false⟩
  | sent => exact ⟨_, _, rfl, writable_store huids (by decide) false⟩
  | drafts => exact ⟨_, _, rfl, writable_store huids (by decide) false⟩
  | trash => exact ⟨_, _, rfl, writable_store huids (by decide) false⟩
  | spam => exact ⟨_, _, rfl, writable_store huids (by decide) false⟩

theorem labelStore_next (huids : uidsOf remotes ≠ []) {sign : String} {labels : List String}
    (hsign : sign.toList.any isLineBreak = false) (h : AllUnbroken labels) :
    Writable (labelStore (setText (uidsOf remotes)) sign labels) := by
  rcases any_labelStore (setText (uidsOf remotes)) sign labels hsign with ⟨what, hstore, hany⟩
  rw [hstore]
  apply writable_store huids
  unfold Unbroken
  rw [hany, List.any_eq_false]
  intro label hlabel
  rw [h label hlabel]
  simp

theorem keywords_next (huids : uidsOf remotes ≠ []) {add remove : List String}
    (h : ∃ label ∈ add ++ remove, labelKeyword label ≠ none) :
    ActsNext (.setLabels remotes add remove) describe := by
  have hbegun : (connected (keeping .keywords .localOnly)).begun describe
      (.setLabels remotes add remove) = Backend.storeLabelKeywords remotes add remove := rfl
  refine ⟨keeping .keywords .localOnly, .applied, mailboxPath remotes, .readWrite, ?_⟩
  rw [hbegun]
  unfold Backend.storeLabelKeywords
  dsimp only
  rw [over_some huids]
  have hsome : add.filterMap labelKeyword ≠ [] ∨ remove.filterMap labelKeyword ≠ [] := by
    rcases h with ⟨label, hlabel, hkeyword⟩
    rcases Option.ne_none_iff_exists'.mp hkeyword with ⟨word, hword⟩
    rcases List.mem_append.mp hlabel with hin | hin
    · exact .inl (List.ne_nil_of_mem (List.mem_filterMap.mpr ⟨label, hin, hword⟩))
    · exact .inr (List.ne_nil_of_mem (List.mem_filterMap.mpr ⟨label, hin, hword⟩))
  rw [if_neg (by rw [List.isEmpty_iff, List.isEmpty_iff, not_and_or]; exact hsome)]
  rcases stores_next huids (keywords_unbroken add) (keywords_unbroken remove) hsome with
    ⟨first, rest, hstores, hwritable⟩
  exact ⟨first, rest, by rw [List.cons_append, hstores], hwritable⟩

theorem labels_next (huids : uidsOf remotes ≠ []) {add remove : List String}
    (h : AsksLabels add remove) : ActsNext (.setLabels remotes add remove) describe := by
  rcases h with hkeyword | h
  · exact keywords_next huids hkeyword
  · have hbegun : (connected (keeping .supported .localOnly)).begun describe
        (.setLabels remotes add remove) =
          (connected (keeping .supported .localOnly)).setLabels remotes add remove := rfl
    refine ⟨keeping .supported .localOnly, .applied, mailboxPath remotes, .readWrite, ?_⟩
    rw [hbegun]
    unfold Backend.setLabels
    dsimp only [connected, keeping]
    rw [over_some huids]
    rcases h with ⟨hne, hadd⟩ | ⟨rfl, hne, hremove⟩
    · cases add with
      | nil => exact absurd rfl hne
      | cons label add => exact ⟨_, _, rfl, labelStore_next huids (by decide) hadd⟩
    · cases remove with
      | nil => exact absurd rfl hne
      | cons label remove => exact ⟨_, _, rfl, labelStore_next huids (by decide) hremove⟩

/-- Filing and copying into a folder write its name, in a label or as a mailbox. -/
theorem folder_next (huids : uidsOf remotes ≠ []) {folder : String}
    (h : sameFolder (mailboxPath remotes) folder = false ∨ Unbroken folder) :
    ActsNext (.file remotes folder) describe ∧ ActsNext (.copy remotes folder) describe := by
  rcases h with hother | hunbroken
  · constructor
    · refine ⟨keeping .localOnly (.moveToFolder ""),
        .moving (remotes.filter (isIn (mailboxPath remotes))) folder, mailboxPath remotes,
        .readWrite, .uidCopy (setText (uidsOf remotes)) folder, [], ?_, writable_copy huids folder⟩
      simp only [Backend.begun, Backend.file, over_some huids, connected, keeping,
        Backend.moveInto, hother, Bool.false_eq_true, if_false]
      rfl
    · refine ⟨keeping .localOnly (.moveToFolder ""),
        .copying (remotes.filter (isIn (mailboxPath remotes))) folder, mailboxPath remotes,
        .readOnly, .uidCopy (setText (uidsOf remotes)) folder, [], ?_, writable_copy huids folder⟩
      simp only [Backend.begun, Backend.copy, over_some huids, connected, keeping,
        Backend.copyInto, hother, Bool.false_eq_true, if_false]
  · have hone : AllUnbroken [folder] := by
      intro label hlabel
      rw [List.mem_singleton.mp hlabel]
      exact hunbroken
    have hsign : "+".toList.any isLineBreak = false := by decide
    have hwritable := labelStore_next huids hsign hone
    constructor
    · refine ⟨keeping .localOnly .dropInbox, .applied, mailboxPath remotes, .readWrite, _,
        [Backend.leaveInbox (setText (uidsOf remotes))], ?_, hwritable⟩
      simp only [Backend.begun, Backend.file, over_some huids, connected, keeping]
    · refine ⟨keeping .localOnly .dropInbox, .applied, mailboxPath remotes, .readWrite, _, [], ?_,
        hwritable⟩
      simp only [Backend.begun, Backend.copy, over_some huids, connected, keeping]

omit [TextTables] [ImapDates] in
theorem fetch_next {made : Job} {failing : Option Job} (huids : uidsOf remotes ≠ [])
    (items : String) : Backend.fetch made failing remotes items = .walk made
      [selecting (mailboxPath remotes) .readOnly, .uidFetch (setText (uidsOf remotes)) items] := by
  unfold Backend.fetch
  rw [uidSet_some huids]

theorem sections_next {remote : RemoteRef} {sections : List Section} (huids : uidsOf [remote] ≠ [])
    (hne : sections ≠ []) (hvalid : sections.all isSection = true) :
    ActsNext (.fetchSections remote sections) describe := by
  let asked := sections.map fun s => "BODY.PEEK[" ++ s.asStr ++ "]"
  have hbegun : (connected (keeping .localOnly .localOnly)).begun describe
      (.fetchSections remote sections) = Backend.fetch (.sections remote) (some (.sections remote))
        [remote] ("(UID " ++ " ".intercalate asked ++ ")") := by
    have hsections : (connected (keeping .localOnly .localOnly)).begun describe
        (.fetchSections remote sections) = Backend.fetchSections describe remote sections := rfl
    rw [hsections]
    unfold Backend.fetchSections
    have hsome : sections.isEmpty = false := by simpa using hne
    rw [hsome, hvalid]
    rfl
  rw [fetch_next huids] at hbegun
  refine ⟨_, _, _, _, _, _, hbegun, writable_fetch huids ?_ ?_⟩
  · cases sections with
    | nil => exact absurd rfl hne
    | cons first sections =>
      rw [List.isPrefixOf_iff_prefix]
      have hfirst : "BODY.PEEK[".toList <+: (" ".intercalate asked).toList := by
        rw [String.toList_intercalate]
        cases sections with
        | nil =>
          simp only [asked, List.map_cons, List.map_nil, List.intercalate_singleton,
            String.toList_append, List.append_assoc]
          exact List.prefix_append _ _
        | cons next sections =>
          simp only [asked, List.map_cons, List.intercalate_cons_cons, String.toList_append,
            List.append_assoc]
          exact List.prefix_append _ _
      rcases hfirst with ⟨rest, hrest⟩
      refine ⟨rest ++ ")".toList, ?_⟩
      rw [String.toList_append, String.toList_append, ← hrest]
      rfl
  · have hasked : AllUnbroken asked := by
      intro word hword
      rcases List.mem_map.mp hword with ⟨part, hpart, rfl⟩
      have hpart := isSection_unbroken (List.all_eq_true.mp hvalid part hpart)
      unfold Unbroken at hpart ⊢
      rw [String.toList_append, String.toList_append, List.any_append, List.any_append, hpart]
      decide
    unfold Unbroken
    rw [String.toList_append, String.toList_append, List.any_append, List.any_append,
      unbroken_intercalate hasked]
    decide

/-- An unguarded operation is a walk that selects a mailbox and then acts in it, on some server. -/
theorem unguarded_next {op : ProtoOp} (h : Unguarded op) : ActsNext op describe := by
  cases op with
  | fetchBody remotes =>
    have hbegun : (connected (keeping .localOnly .localOnly)).begun describe (.fetchBody remotes) =
        Backend.fetch (.fetch remotes) none remotes "(UID BODY.PEEK[])" := rfl
    rw [fetch_next h] at hbegun
    exact ⟨_, _, _, _, _, _, hbegun, writable_fetch h (by decide) (by decide)⟩
  | fetchSections remote sections => exact sections_next h.1 h.2.1 h.2.2
  | setFlags remotes read star => exact flags_next h.1 h.2
  | setFlag remotes hue =>
    have hbegun : (connected (keeping .localOnly .localOnly)).begun describe
        (.setFlag remotes hue) = Backend.over remotes fun set => .walk .applied
          [selecting (mailboxPath remotes) .readWrite, flagStore set "+FLAGS" ["\\Flagged"]] := rfl
    rw [over_some h] at hbegun
    exact ⟨_, _, _, _, _, _, hbegun, flagStore_next h (by decide) (by decide)⟩
  | addKeyword remotes keyword =>
    have hbegun : (connected (keeping .localOnly .localOnly)).begun describe
        (.addKeyword remotes keyword) = Backend.over remotes fun set => .walk .applied
          [selecting (mailboxPath remotes) .readWrite,
            flagStore set "+FLAGS" [keywordAtom keyword]] := rfl
    rw [over_some h] at hbegun
    cases keyword with
    | mdnSent => exact ⟨_, _, _, _, _, _, hbegun, flagStore_next h (by decide) (by decide)⟩
  | setMailbox remotes role => exact mailbox_next h role
  | setLabels remotes add remove => exact labels_next h.1 h.2
  | file remotes folder => exact (folder_next h.1 h.2).1
  | copy remotes folder => exact (folder_next h.1 h.2).2
  | _ => cases h

end Writing

@[reducible] def noDates : ImapDates := ⟨fun _ => [], fun _ => []⟩

section Renumbered

attribute [local instance] TextTables.ascii lineParser noDates

def firstNumber : Bytes := wire "* OK [UIDVALIDITY 1] numbered\r\n"

def secondNumber : Bytes := wire "* OK [UIDVALIDITY 2] numbered\r\n"

def agreed : Bytes := wire "a001 OK selected\r\n"

theorem agreed_agrees : Session.Agrees agreed "a001" where
  parse := by decide
  long := by decide
  plus := by decide
  search := by decide
  silent := by decide

theorem firstNumber_tells : Session.Tells firstNumber where
  parse := by decide
  long := by decide
  plus := by decide
  search := by decide
  silent := by decide
  short := by decide

theorem secondNumber_tells : Session.Tells secondNumber where
  parse := by decide
  long := by decide
  plus := by decide
  search := by decide
  silent := by decide
  short := by decide

/-- Some number is reported that the address does not have. -/
theorem other_number (uidvalidity : UInt32) : ∃ line now, Session.Tells line ∧ uidvalidity ≠ now ∧
    reportedUidvalidity [⟨0, Text.trimEnd (Utf8.decodeLossy line), line⟩] = some now := by
  by_cases h : uidvalidity = 1
  · exact ⟨secondNumber, 2, secondNumber_tells, by rw [h]; decide, by decide⟩
  · exact ⟨firstNumber, 1, firstNumber_tells, h, by decide⟩

variable {op : ProtoOp} {describe : Backend.Describe}

/-- What is dealt with where a number is reported before the selection is agreed to. -/
theorem next_dealt {caps : Caps} {mailbox : String} {access : Access} {first : ImapCommand}
    {rest : List ImapCommand} {line : Bytes}
    (hbegun : (connected caps).begun describe op =
      .walk job (selecting mailbox access :: first :: rest))
    (hfirst : Writable first) (hline : Session.Tells line) :
    ∃ knew, (connected caps).dealt describe op [.bytes line, .bytes agreed] =
        [⟨some (selecting mailbox access), .empty⟩, ⟨some first, knew⟩] ∧
      knew.untagged = [⟨0, Text.trimEnd (Utf8.decodeLossy line), line⟩] := by
  rcases begin_going hbegun with ⟨backend, needs, hbegin, hsession⟩
  have hphase : (opening mailbox access (first :: rest)).phase = .running 0 "a001" := rfl
  have htold := Session.feed_tells hline hphase rfl rfl rfl
  generalize htelling : ({ opening mailbox access (first :: rest) with
    held := line.length + (Utf8.encode (Text.trimEnd (Utf8.decodeLossy line))).length
    transcript := { (opening mailbox access (first :: rest)).transcript with
      untagged := (opening mailbox access (first :: rest)).transcript.untagged ++
        [⟨0, Text.trimEnd (Utf8.decodeLossy line), line⟩] } } : Session) = told at htold
  have hfed : backend.feed (.bytes line) = ({ backend with session := some told }, .need [.read]) := by
    unfold Backend.feed
    rw [hsession]
    dsimp only
    rw [htold]
  have hstate : ((connected caps).talk describe op [.bytes line, .bytes agreed]).state =
      (Backend.feed { backend with session := some told } (.bytes agreed)).1 := by
    have htalk : (connected caps).talk describe op [.bytes line, .bytes agreed] =
        ((Talk.begin backend (.need needs)).next Backend.machine (.bytes line)).next
          Backend.machine (.bytes agreed) := by
      unfold Backend.talk
      rw [hbegin]
      rfl
    have hbegun : (Talk.begin backend (.need needs) : Talk Backend Backend.Answer).progress =
        .need needs := rfl
    have hfeed : Backend.machine.feed (Talk.begin backend (.need needs : Progress Backend.Answer)).state
        (.bytes line) = ({ backend with session := some told }, .need [.read]) := hfed
    rw [htalk, Talk.next_need hbegun hfeed]
    rfl
  rcases hfirst.renders (tagText 2) with ⟨out, hout⟩
  have hrender : render told.auth told.transcript.capabilities first (tagText (told.counter + 1)) =
      .ok out := by
    rw [← htelling]
    exact hout
  have hsent := Session.feed_sends agreed_agrees (by rw [← htelling]; rfl) (by rw [← htelling]; rfl)
    (by rw [← htelling]; rfl) hfirst.line hfirst.sends hrender
  rcases hsent with ⟨knew, htrail, huntagged⟩
  have hkept : ({ backend with session := some told } : Backend).session = some told := rfl
  have hlast := Backend.feed_trail hkept (.bytes agreed)
  rw [htrail] at hlast
  refine ⟨knew, ?_, ?_⟩
  · unfold Backend.dealt
    rw [hbegin]
    dsimp only
    rw [hstate, hlast, ← htelling]
    rfl
  · rw [huntagged, ← htelling]
    rfl

theorem unguarded_uids (hop : op.messages = some remotes) (h : Unguarded op) :
    uidsOf remotes ≠ [] := by
  cases op with
  | fetchBody | setFlag | addKeyword | setMailbox =>
    cases hop
    exact h
  | fetchSections | setFlags | setLabels | file | copy =>
    cases hop
    exact h.1
  | _ => cases h

theorem address_of_uids (h : uidsOf remotes ≠ []) :
    ∃ mailbox uidvalidity uid, RemoteRef.imap mailbox uidvalidity uid ∈ remotes := by
  rcases List.exists_mem_of_ne_nil _ h with ⟨uid, huid⟩
  rcases List.mem_filterMap.mp huid with ⟨remote, hremote, hkind⟩
  cases remote with
  | imap mailbox uidvalidity named => exact ⟨mailbox, uidvalidity, named, hremote⟩
  | _ => cases hkind

/-- An unguarded operation acts by old numbers on some server that says so and then says no
more. -/
theorem unguarded_acts (hop : op.messages = some remotes) (h : Unguarded op)
    (describe : Backend.Describe) : ∃ (backend : Backend) (events : List IoReady),
      Steady (backend.dealt describe op events) ∧
        ¬ KeepsOff remotes (backend.dealt describe op events) := by
  rcases unguarded_next h with ⟨caps, job, mailbox, access, first, rest, hbegun, hfirst⟩
  rcases address_of_uids (unguarded_uids hop h) with ⟨path, uidvalidity, uid, hremote⟩
  rcases other_number uidvalidity with ⟨line, now, hline, hother, hnow⟩
  rcases next_dealt hbegun hfirst hline with ⟨knew, hdealt, hknew⟩
  refine ⟨connected caps, [.bytes line, .bytes agreed], ?_⟩
  rw [hdealt]
  constructor
  · intro i j s d e _ _ _ command number hs hselect hd hj he _ _ hreported
    have hi := (List.getElem?_eq_some_iff.mp hd).1
    have hlast := (List.getElem?_eq_some_iff.mp he).1
    simp only [List.length_cons, List.length_nil] at hi hlast
    have hplace : j = i + 1 := by omega
    rw [hplace, hd, Option.some.injEq] at he
    rw [he]
    exact hreported
  · intro hkeeps
    rcases Option.ne_none_iff_exists'.mp hfirst.acts with ⟨set, hset⟩
    exact hother (hkeeps 1 ⟨some first, knew⟩ first set now rfl rfl hset (by rw [hknew]; exact hnow)
      path uidvalidity uid hremote)

end Renumbered

/-- An operation that is not unguarded acts by old numbers just where the server takes back the
number it reported. -/
theorem guarded_steady [TextTables] [ImapDates] [ResponseParser] {op : ProtoOp}
    (h : op.messages = some remotes) (hguarded : ¬ Unguarded op) (backend : Backend)
    (describe : Backend.Describe) (events : List IoReady) :
    KeepsOff remotes (backend.dealt describe op events) ↔
      Steady (backend.dealt describe op events) := by
  rcases backend.dealt_trailed describe op events with hnil | ⟨job, commands, hbegun, htrail⟩
  · rw [hnil]
    have hidle : KeepsOff remotes [] ∧ Steady [] := idle_agrees (by simp)
    exact ⟨fun _ => hidle.2, fun _ => hidle.1⟩
  · by_cases hdestroy : ∃ named, op = .destroy named
    · rcases hdestroy with ⟨named, rfl⟩
      cases h
      rcases Backend.destroy_walk hbegun with ⟨uidvalidity, hdestroys⟩
      refine destroys_steady hdestroys ?_ htrail
      rintro rfl
      cases hbegun
    · have hbarred := guarded_barred h hguarded (fun named hop => hdestroy ⟨named, hop⟩) hbegun
      have hidle : KeepsOff remotes (backend.dealt describe op events) ∧
          Steady (backend.dealt describe op events) :=
        idle_agrees fun i d command hd hsent => barred_acts hbarred htrail hd hsent
      exact ⟨fun _ => hidle.2, fun _ => hidle.1⟩

section Examples

attribute [local instance] TextTables.ascii lineParser noDates

end Examples

end Mailo.Proto.Imap
