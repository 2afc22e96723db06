import Mailo.Proto.Imap.Walk

/-!
# What a walk names

An operation on messages begins as a walk that selects one mailbox and then names the UIDs of
the addresses it was given, and no others.
-/

namespace Mailo.Proto.Imap

open Domain Library Proto.Search

namespace ImapCommand

/-- The mailbox a command selects. -/
def selects : ImapCommand → Option String
  | .select mailbox _ _ => some mailbox
  | _ => none

/-- The set of UIDs a command names. -/
def names : ImapCommand → Option String
  | .uidFetch set _ | .uidStore set _ _ | .uidCopy set _ | .uidMove set _ | .uidExpunge set =>
    some set
  | _ => none

/-- A command on what a search found. -/
def isFound : ImapCommand → Bool
  | .uidStoreFound _ | .uidExpungeFound => true
  | _ => false

end ImapCommand

/-- A command that neither selects nor names anything. -/
structure Quiet (command : ImapCommand) : Prop where
  selects : command.selects = none
  names : command.names = none
  found : command.isFound = false

/-- A command that names no UIDs but those of a set. -/
structure Within (set : String) (command : ImapCommand) : Prop where
  selects : command.selects = none
  names : ∀ {named}, command.names = some named → named = set
  found : command.isFound = false

variable {command : ImapCommand} {commands : List ImapCommand} {d : Decided} {i : Nat}

theorem Quiet.within (h : Quiet command) (set : String) :
    Within set command where
  selects := h.selects
  names hnamed := by
    rw [h.names] at hnamed
    cases hnamed
  found := h.found

/-- A walk over the messages at some addresses. -/
def Over (remotes : List RemoteRef) (commands : List ImapCommand) : Prop :=
  ∃ before access rest,
    commands = before ++ selecting (mailboxPath remotes) access :: rest ∧
      (∀ command ∈ before, Quiet command) ∧
      ∀ command ∈ rest, Within (setText (uidsOf remotes)) command

namespace Backend

variable {remotes : List RemoteRef} {set : String} {commands : List ImapCommand} {job : Job}

theorem uidSet_eq (h : uidSet remotes = some set) :
    set = setText (uidsOf remotes) := by
  unfold uidSet at h
  dsimp only at h
  split at h
  · cases h
  · exact (Option.some.inj h).symm

/-- A walk that selects first is over the addresses where what follows names their UIDs. -/
theorem over_walk {walk : String → Begun} (h : «over» remotes walk = .walk job commands)
    (hwalk : walk (setText (uidsOf remotes)) = .walk job commands → Over remotes commands) :
    Over remotes commands := by
  unfold «over» at h
  split at h
  · cases h
  · rename_i set hset
    rw [uidSet_eq hset] at h
    exact hwalk h

theorem Over.of_first {access : Access} {rest : List ImapCommand}
    (h : ∀ command ∈ rest, Within (setText (uidsOf remotes)) command) :
    Over remotes (selecting (mailboxPath remotes) access :: rest) :=
  ⟨[], access, rest, rfl, by simp, h⟩

theorem within_store (set what : String) (tolerate : Bool) :
    Within set (.uidStore set what tolerate) :=
  ⟨rfl, fun h => (Option.some.inj h).symm, rfl⟩

theorem within_storeSome {sign : String} {words : List String} :
    ∀ command ∈ storeSome set sign words, Within set command := by
  intro command hcommand
  unfold storeSome at hcommand
  split at hcommand
  · cases hcommand
  · rw [List.mem_singleton.mp hcommand]
    exact within_store _ _ _

variable {a b : List ImapCommand} {backend : Backend}

theorem within_append (ha : ∀ command ∈ a, Within set command)
    (hb : ∀ command ∈ b, Within set command) :
    ∀ command ∈ a ++ b, Within set command := by
  intro command hcommand
  rcases List.mem_append.mp hcommand with h | h
  · exact ha command h
  · exact hb command h

theorem within_one (h : Within set command) :
    ∀ c ∈ [command], Within set c := by
  intro c hc
  rw [List.mem_singleton.mp hc]
  exact h

theorem within_if {p : Prop} [Decidable p] (ha : ∀ command ∈ a, Within set command)
    (hb : ∀ command ∈ b, Within set command) :
    ∀ command ∈ (if p then a else b), Within set command := by
  split
  · exact ha
  · exact hb

theorem within_junkMarks (caps : Caps) (source : String) (role : MailboxRole) (set : String) :
    ∀ command ∈ junkMarks caps source role set, Within set command := by
  have hmarks : ∀ on off : String, ∀ command ∈
      [ImapCommand.uidStore set on true, ImapCommand.uidStore set off true],
      Within set command := by
    intro on off command hcommand
    rcases List.mem_cons.mp hcommand with rfl | hcommand
    · exact within_store _ _ _
    · rw [List.mem_singleton.mp hcommand]
      exact within_store _ _ _
  unfold junkMarks
  split
  · exact hmarks _ _
  · exact within_if (hmarks _ _) (by simp)
  · simp

theorem moveInto_over (backend : Backend) {target : String} {marks : List ImapCommand}
    (hmarks : ∀ command ∈ marks, Within (setText (uidsOf remotes)) command)
    (h : backend.moveInto (mailboxPath remotes) remotes (setText (uidsOf remotes)) target marks =
      .walk job commands) : Over remotes commands := by
  unfold moveInto at h
  split at h
  · cases h
  · cases h
    apply Over.of_first
    apply within_append hmarks
    apply within_one
    split
    · exact ⟨rfl, fun h => (Option.some.inj h).symm, rfl⟩
    · exact ⟨rfl, fun h => (Option.some.inj h).symm, rfl⟩

theorem fetch_over {made : Job} {failing : Option Job} {items : String}
    (h : fetch made failing remotes items = .walk job commands) : Over remotes commands := by
  unfold fetch at h
  split at h
  · cases h
  · rename_i set hset
    cases h
    apply Over.of_first
    apply within_one
    exact ⟨rfl, fun h => (Option.some.inj h).symm.trans (uidSet_eq hset), rfl⟩

theorem imapOnly_ok {held : List (String × UInt32 × UInt32)} (h : imapOnly remotes = .ok held) :
    remotes = held.map fun one => RemoteRef.imap one.1 one.2.1 one.2.2 := by
  induction remotes generalizing held with
  | nil =>
    cases h
    rfl
  | cons remote remotes ih =>
    cases remote with
    | imap mailbox uidvalidity uid =>
      rcases map_eq_ok h with ⟨rest, hrest, rfl⟩
      rw [List.map_cons, ← ih hrest]
    | _ => cases h

theorem uidsOf_imap (held : List (String × UInt32 × UInt32)) :
    uidsOf (held.map fun one => RemoteRef.imap one.1 one.2.1 one.2.2) =
      held.map fun one => one.2.2 := by
  induction held with
  | nil => rfl
  | cons one held ih =>
    simp only [uidsOf, List.map_cons, List.filterMap_cons, List.cons.injEq, true_and] at ih ⊢
    exact ih

/-- What a deletion begins as, when it begins: a walk over Trash or Spam that stops unless the
mailbox still has the numbers it is asked to delete. -/
structure Destroys (backend : Backend) (remotes : List RemoteRef) (uidvalidity : UInt32)
    (commands : List ImapCommand) : Prop where
  walk : commands =
    [.capability, selecting (mailboxPath remotes) .readWrite, .requireUidValidity uidvalidity,
      .requireCapability ["UIDPLUS", "IMAP4rev2"],
      .uidStore (setText (uidsOf remotes)) markDeleted false,
      .uidExpunge (setText (uidsOf remotes))]
  role : backend.caps.folders.role (mailboxPath remotes) = some .trash ∨
    backend.caps.folders.role (mailboxPath remotes) = some .spam
  numbered : ∀ remote ∈ remotes, ∃ mailbox uid, remote = .imap mailbox uidvalidity uid ∧
    sameFolder mailbox (mailboxPath remotes) = true

theorem destroy_walk {describe : RemoteRef → String}
    (h : backend.destroy describe remotes = .walk job commands) :
    ∃ uidvalidity, Destroys backend remotes uidvalidity commands := by
  unfold destroy at h
  split at h
  · cases h
  · rename_i held hheld
    have hremotes := imapOnly_ok hheld
    split at h
    · cases h
    · rename_i path uidvalidity uid rest
      split at h
      · cases h
      · rename_i hsame
        have hpath : mailboxPath remotes = path := by
          rw [hremotes]
          rfl
        have huids : uidsOf remotes = ((path, uidvalidity, uid) :: rest).map fun one => one.2.2 := by
          rw [hremotes]
          exact uidsOf_imap _
        have hnumbered : ∀ remote ∈ remotes, ∃ mailbox uid,
            remote = .imap mailbox uidvalidity uid ∧
              sameFolder mailbox (mailboxPath remotes) = true := by
          intro remote hremote
          rw [hremotes] at hremote
          rcases List.mem_map.mp hremote with ⟨one, hone, rfl⟩
          rw [Bool.not_eq_true, List.any_eq_false] at hsame
          have hthis := hsame one hone
          simp only [Bool.or_eq_true, Bool.not_eq_eq_eq_not, Bool.not_true, bne_iff_ne, ne_eq,
            not_or, Bool.not_eq_false, not_not] at hthis
          refine ⟨one.1, one.2.2, ?_, ?_⟩
          · rw [hthis.2]
          · rw [hpath]
            exact hthis.1
        split at h
        · rename_i hrole
          cases h
          refine ⟨uidvalidity, ?_, ?_, hnumbered⟩
          · rw [hpath, huids]
          · rw [hpath]
            exact .inl hrole
        · rename_i hrole
          cases h
          refine ⟨uidvalidity, ?_, ?_, hnumbered⟩
          · rw [hpath, huids]
          · rw [hpath]
            exact .inr hrole
        · cases h

theorem Destroys.over {uidvalidity : UInt32} (h : Destroys backend remotes uidvalidity commands) :
    Over remotes commands := by
  refine ⟨[.capability], .readWrite, _, h.walk, ?_, ?_⟩
  · intro command hcommand
    rw [List.mem_singleton.mp hcommand]
    exact ⟨rfl, rfl, rfl⟩
  · intro command hcommand
    simp only [List.mem_cons, List.not_mem_nil, or_false] at hcommand
    rcases hcommand with rfl | rfl | rfl | rfl
    · exact Quiet.within ⟨rfl, rfl, rfl⟩ _
    · exact Quiet.within ⟨rfl, rfl, rfl⟩ _
    · exact within_store _ _ _
    · exact ⟨rfl, fun h => (Option.some.inj h).symm, rfl⟩

section Begin

variable [TextTables]

/-- An operation on messages is a walk over their addresses. -/
theorem begun_over {backend : Backend} {describe : Describe} {op : ProtoOp}
    (hop : op.messages = some remotes) (h : backend.begun describe op = .walk job commands) :
    Over remotes commands := by
  cases op with
  | fetchHeaders | fetchBody | fetchStructure =>
    cases hop
    exact fetch_over h
  | fetchSections remote sections =>
    cases hop
    have hsections : fetchSections describe remote sections = .walk job commands := h
    unfold fetchSections at hsections
    split at hsections
    · cases hsections
    · exact fetch_over hsections
  | setFlags named read star =>
    cases hop
    apply over_walk h
    intro hwalk
    cases hwalk
    exact Over.of_first (within_append within_storeSome within_storeSome)
  | setFlag named hue =>
    cases hop
    have hflag : backend.setFlag remotes hue = .walk job commands := h
    unfold setFlag at hflag
    split at hflag
    apply over_walk hflag
    intro hwalk
    cases hwalk
    apply Over.of_first
    intro command hcommand
    rcases List.mem_cons.mp hcommand with rfl | hcommand
    · exact within_store _ _ _
    · exact within_storeSome command hcommand
  | addKeyword named keyword =>
    cases hop
    apply over_walk h
    intro hwalk
    cases hwalk
    exact Over.of_first (within_one (within_store _ _ _))
  | setLabels named add remove =>
    cases hop
    have hlabels : backend.setLabels remotes add remove = .walk job commands := h
    unfold setLabels at hlabels
    split at hlabels
    · unfold storeLabelKeywords at hlabels
      apply over_walk hlabels
      intro hwalk
      split at hwalk
      · cases hwalk
      · cases hwalk
        exact Over.of_first (within_append within_storeSome within_storeSome)
    · cases hlabels
    · apply over_walk hlabels
      intro hwalk
      cases hwalk
      apply Over.of_first
      apply within_append
      · exact within_if (by simp) (within_one (within_store _ _ _))
      · exact within_if (by simp) (within_one (within_store _ _ _))
  | setMailbox named role =>
    cases hop
    apply over_walk h
    intro hwalk
    split at hwalk
    · cases hwalk
    · cases hwalk
      apply Over.of_first
      apply within_append
      · split
        · exact within_one (within_store _ _ _)
        · simp
      · exact within_if (by simp) (within_one (within_store _ _ _))
    · split at hwalk
      · cases hwalk
      · exact moveInto_over backend (within_junkMarks _ _ _ _) hwalk
  | file named folder =>
    cases hop
    apply over_walk h
    intro hwalk
    split at hwalk
    · cases hwalk
    · cases hwalk
      apply Over.of_first
      intro command hcommand
      rcases List.mem_cons.mp hcommand with rfl | hcommand
      · exact within_store _ _ _
      · exact within_one (within_store _ _ _) command hcommand
    · exact moveInto_over backend (by simp) hwalk
  | copy named folder =>
    cases hop
    apply over_walk h
    intro hwalk
    split at hwalk
    · cases hwalk
    · cases hwalk
      exact Over.of_first (within_one (within_store _ _ _))
    · unfold copyInto at hwalk
      split at hwalk
      · cases hwalk
      · cases hwalk
        apply Over.of_first
        apply within_one
        exact ⟨rfl, fun h => (Option.some.inj h).symm, rfl⟩
  | expunge named => cases h
  | destroy named =>
    cases hop
    rcases destroy_walk h with ⟨uidvalidity, hdestroys⟩
    exact hdestroys.over
  | _ => cases hop

end Begin

end Backend

/-! ## What a trail names -/

/-- Where one command was written and a mailbox stood selected: it was selected before, the server
said so, and no other was since. -/
structure SelectedAt (trail : List Decided) (i : Nat) (knew : Transcript) (mailbox : String) :
    Prop where
  select : ∃ (j : Nat) (d : Decided) (access : Access) (resync : Option Resync)
    (text : List Char), j < i ∧ trail[j]? = some d ∧
      d.sent = some (.select mailbox access resync) ∧ ⟨j, text⟩ ∈ knew.completed ∧
      ∀ (k : Nat) (e : Decided) (command : ImapCommand), j < k → k < i → trail[k]? = some e →
        e.sent = some command → command.selects = none

/-- A command that was written is the one of the walk, or one on what a search found. -/
theorem Session.Fits.sent (h : Session.Fits commands i d) (hsent : d.sent = some command) :
    commands[i]? = some command ∨
      ∃ found, commands[i]? = some found ∧ found.isFound = true ∧
        Session.decision commands d.knew i found = .send command := by
  rcases h with ⟨whole, hwhole, hdecided⟩
  rcases hdecided with ⟨_, hnone⟩ | ⟨sent, hsend, hsome⟩
  · rw [hnone] at hsent
    cases hsent
  · rw [hsome, Option.some.injEq] at hsent
    rw [hsent] at hsend
    cases hfound : whole.isFound with
    | true => exact .inr ⟨whole, hwhole, hfound, hsend⟩
    | false =>
      left
      rw [hwhole]
      unfold Session.decision at hsend
      split at hsend
      · split at hsend
        · split at hsend
          · cases hsend
          · cases hsend
            rfl
        · cases hsend
          rfl
      · dsimp only at hsend
        split at hsend
        · split at hsend
          · cases hsend
          · cases hsend
        · cases hsend
      · cases hfound
      · cases hfound
      · split at hsend
        · cases hsend
        · cases hsend
      · split at hsend
        · cases hsend
          rfl
        · cases hsend
      · cases hsend
        rfl

theorem getElem?_before {α : Type} {before rest : List α} {x y : α}
    (h : (before ++ x :: rest)[i]? = some y) :
    y ∈ before ∧ i < before.length ∨ y = x ∧ i = before.length ∨
      y ∈ rest ∧ before.length < i := by
  rw [List.getElem?_append] at h
  split at h
  · rename_i hi
    exact .inl ⟨List.mem_of_getElem? h, hi⟩
  · rename_i hi
    cases hplace : i - before.length with
    | zero =>
      rw [hplace] at h
      exact .inr (.inl ⟨by simpa using h.symm, by omega⟩)
    | succ k =>
      rw [hplace] at h
      exact .inr (.inr ⟨List.mem_of_getElem? h, by omega⟩)

theorem selects_of_found {knew : Transcript} {found sent : ImapCommand}
    (hfound : found.isFound = true) (h : Session.decision commands knew i found = .send sent) :
    sent.selects = none := by
  cases found with
  | uidStoreFound what =>
    unfold Session.decision at h
    dsimp only at h
    split at h
    · cases h
      rfl
    · cases h
  | uidExpungeFound =>
    unfold Session.decision at h
    dsimp only at h
    split at h
    · split at h
      · cases h
        rfl
      · cases h
    · cases h
  | _ => cases hfound

variable {trail : List Decided} {remotes : List RemoteRef}

/-- Once a walk is past its only selection, that mailbox stands selected. -/
theorem trailed_selected {before rest : List ImapCommand} {path : String} {access : Access}
    (hwalk : commands = before ++ selecting path access :: rest)
    (hrest : ∀ command ∈ rest, command.selects = none) (htrail : Session.Trailed commands trail)
    (hd : trail[i]? = some d) (hi : before.length < i) : SelectedAt trail i d.knew path := by
  have hlength := (List.getElem?_eq_some_iff.mp hd).1
  have hbound : before.length < trail.length := by omega
  have hat := List.getElem?_eq_getElem hbound
  have hselect : commands[before.length]? = some (selecting path access) := by
    rw [hwalk]
    simp
  have hwritten : trail[before.length].sent = some (selecting path access) := by
    rcases htrail.fits _ _ hat with ⟨whole, hwhole, hdecided⟩
    rw [hselect, Option.some.injEq] at hwhole
    rw [← hwhole] at hdecided
    rcases hdecided with ⟨hpass, _⟩ | ⟨sent, hsend, hsome⟩
    · cases hpass
    · cases hsend
      exact hsome
  have hsettled := htrail.settled _ _ _ _ hi hat hd (by rw [hwritten]; simp)
  rcases hsettled with ⟨text, htext⟩ | htolerated
  · refine ⟨before.length, _, access, none, text, hi, hat, hwritten, htext, ?_⟩
    intro k e c hlow hhigh he hc
    rcases (htrail.fits k e he).sent hc with hthis | ⟨found, _, hfound, hsend⟩
    · rw [hwalk] at hthis
      rcases getElem?_before hthis with ⟨_, hk⟩ | ⟨_, hk⟩ | ⟨hmem, _⟩
      · omega
      · omega
      · exact hrest c hmem
    · exact selects_of_found hfound hsend
  · rw [hselect] at htolerated
    cases htolerated

/-- In a walk over some addresses whatever names UIDs names theirs, in the mailbox of the first of
them, which the server has selected. -/
theorem trailed_names (hover : Over remotes commands) (htrail : Session.Trailed commands trail)
    {set : String} (hd : trail[i]? = some d) (hsent : d.sent = some command)
    (hnames : command.names = some set) :
    set = setText (uidsOf remotes) ∧ SelectedAt trail i d.knew (mailboxPath remotes) := by
  rcases hover with ⟨before, access, rest, hwalk, hbefore, hrest⟩
  have hfound : ∀ (c : ImapCommand), commands[i]? = some c → c.isFound = false := by
    intro c hc
    rw [hwalk] at hc
    rcases getElem?_before hc with ⟨hmem, _⟩ | ⟨hmem, _⟩ | ⟨hmem, _⟩
    · exact (hbefore c hmem).found
    · rw [hmem]
      rfl
    · exact (hrest c hmem).found
  rcases (htrail.fits i d hd).sent hsent with hcommand | ⟨found, hcommand, hisFound, _⟩
  · rw [hwalk] at hcommand
    rcases getElem?_before hcommand with ⟨hmem, _⟩ | ⟨hmem, _⟩ | ⟨hmem, hi⟩
    · rw [(hbefore command hmem).names] at hnames
      cases hnames
    · rw [hmem] at hnames
      cases hnames
    · exact ⟨(hrest command hmem).names hnames,
        trailed_selected hwalk (fun c hc => (hrest c hc).selects) htrail hd hi⟩
  · rw [hfound found hcommand] at hisFound
    cases hisFound

/-- Signing in first does not change what a walk is over. -/
theorem Over.whole (h : Over remotes commands) (backend : Backend) :
    Over remotes (backend.whole commands) := by
  unfold Backend.whole
  split
  · exact h
  · rcases h with ⟨before, access, rest, hwalk, hbefore, hrest⟩
    refine ⟨backend.build.mechanism :: .compress :: before, access, rest, ?_, ?_, hrest⟩
    · rw [hwalk]
      rfl
    · intro command hcommand
      rcases List.mem_cons.mp hcommand with rfl | hcommand
      · unfold Factory.mechanism
        split
        · exact ⟨rfl, rfl, rfl⟩
        · exact ⟨rfl, rfl, rfl⟩
      · rcases List.mem_cons.mp hcommand with rfl | hcommand
        · exact ⟨rfl, rfl, rfl⟩
        · exact hbefore command hcommand

end Mailo.Proto.Imap
