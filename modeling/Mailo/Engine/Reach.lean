import Mailo.Library.Grouping
import Mailo.Proto.Imap.Addressed

/-!
# An act reaches what it names

A UID means something only in the mailbox it came from, so an operation whose addresses name
several mailboxes is split by mailbox and each part is run on its own.
Each address is in one part, and each part names the UIDs of its own addresses in the mailbox
they are in, whatever the server says. A flag's colour is not split, and is the exception.
-/

namespace Mailo.Engine.Split

open Domain Library Proto Proto.Imap Proto.Search

/-- The addresses an operation is split by, when it is. -/
def remotes : ProtoOp → Option (List RemoteRef)
  | .fetchHeaders remotes | .fetchBody remotes | .setFlags remotes _ _ | .setMailbox remotes _
  | .setLabels remotes _ _ | .file remotes _ | .copy remotes _ | .addKeyword remotes _
  | .expunge remotes | .destroy remotes | .fetchStructure remotes => some remotes
  | _ => none

def withRemotes (op : ProtoOp) (remotes : List RemoteRef) : ProtoOp :=
  match op with
  | .fetchHeaders _ => .fetchHeaders remotes
  | .fetchBody _ => .fetchBody remotes
  | .setFlags _ read star => .setFlags remotes read star
  | .setMailbox _ role => .setMailbox remotes role
  | .setLabels _ add remove => .setLabels remotes add remove
  | .file _ folder => .file remotes folder
  | .copy _ folder => .copy remotes folder
  | .addKeyword _ keyword => .addKeyword remotes keyword
  | .expunge _ => .expunge remotes
  | .destroy _ => .destroy remotes
  | .fetchStructure _ => .fetchStructure remotes
  | op => op

def isCopy : ProtoOp → Bool
  | .copy _ _ => true
  | _ => false

/-- What addresses of one part have in common: for a copy the address itself, else the mailbox
where the address is an IMAP one. -/
inductive Key where
  | whole (remote : RemoteRef)
  | mailbox (path : String)
  | complete
deriving DecidableEq

def key (copying : Bool) (remote : RemoteRef) : Key :=
  if copying then .whole remote
  else match remote with
    | .imap mailbox _ _ => .mailbox mailbox
    | _ => .complete

/-- An operation as one for each mailbox its messages are in, in the order each first appears.
A copy made is not made again, so it is one operation a message. -/
def perMailbox (op : ProtoOp) : List ProtoOp :=
  match remotes op with
  | none => [op]
  | some named =>
    match Grouping.groupBy (key (isCopy op)) named with
    | [] => [op]
    | groups => groups.map fun group => withRemotes op group.2

/-! ## What an act reaches -/

def isImap : RemoteRef → Bool
  | .imap _ _ _ => true
  | _ => false

/-- Every address stands in the parts once for each time it is listed, and the parts keep the
order of the addresses of one mailbox. -/
structure Divides (listed : List RemoteRef) (parts : List (List RemoteRef)) : Prop where
  perm : parts.flatten.Perm listed
  order : ∀ mailbox, parts.flatten.filter (isIn mailbox) = listed.filter (isIn mailbox)

/-- Whatever names UIDs names those of listed addresses, each address in the mailbox that stands
selected. -/
def Reaches (listed : List RemoteRef) (trail : List Decided) : Prop :=
  ∀ (i : Nat) (d : Decided) (command : ImapCommand) (set : String), trail[i]? = some d →
    d.sent = some command → command.names = some set →
      ∃ mailbox named, named.Sublist listed ∧ (∀ remote ∈ named, isIn mailbox remote = true) ∧
        set = setText (uidsOf named) ∧ SelectedAt trail i d.knew mailbox

def messagesOf (op : ProtoOp) : List RemoteRef := op.messages.getD []

/-- An act reaches the messages listed: they are divided among its parts, and each part, on any
backend and in any run, acts on them where they are. -/
structure ActsOn (op : ProtoOp) (listed : List RemoteRef) : Prop where
  divides : Divides listed ((perMailbox op).map messagesOf)
  reaches : ∀ part ∈ perMailbox op, ∀ [TextTables] [ImapDates] [ResponseParser]
    (backend : Backend) (describe : Backend.Describe) (events : List IoReady),
    Reaches listed (backend.dealt describe part events)

def IsSpread (op : ProtoOp) : Prop :=
  ∃ remotes hue, op = .setFlag remotes hue ∧
    ∃ a ∈ remotes, ∃ b ∈ remotes, mailboxPath [a] ≠ mailboxPath [b]

/-! ## The parts -/

variable {remote : RemoteRef} {listed : List RemoteRef} {op part : ProtoOp}

theorem isIn_iff {mailbox : String} (h : isImap remote = true) :
    isIn mailbox remote = true ↔ mailboxPath [remote] = mailbox := by
  cases remote with
  | imap path uidvalidity uid => simp [isIn, mailboxPath]
  | _ => cases h

theorem key_mailbox (h : isImap remote = true) :
    key false remote = .mailbox (mailboxPath [remote]) := by
  cases remote with
  | imap path uidvalidity uid => rfl
  | _ => cases h

theorem messages_withRemotes (h : remotes op = some listed) (other : List RemoteRef) :
    (withRemotes op other).messages = some other := by
  cases op with
  | _ => first | rfl | cases h

theorem remotes_eq (h : remotes op = some listed) :
    op.messages = some listed := by
  cases op with
  | _ => first | exact h | cases h

theorem messages_perMailbox (h : remotes op = some listed) :
    ((perMailbox op).map messagesOf).flatten =
      Grouping.joined (Grouping.groupBy (key (isCopy op)) listed) := by
  unfold perMailbox
  rw [h]
  dsimp only
  split
  · rename_i hnil
    cases listed with
    | nil =>
      rw [hnil]
      simp [messagesOf, remotes_eq h, Grouping.joined]
    | cons remote listed =>
      rw [Grouping.groupBy_cons] at hnil
      cases hnil
  · rename_i groups _ 
    rw [List.map_map]
    unfold Grouping.joined
    rw [List.flatMap_def]
    congr 1
    apply List.map_congr_left
    intro group _
    simp [messagesOf, messages_withRemotes h]

theorem part_group (h : remotes op = some listed) (hpart : part ∈ perMailbox op) :
    ∃ k, part.messages = some (listed.filter fun remote => key (isCopy op) remote = k) ∨
      part.messages = some [] := by
  unfold perMailbox at hpart
  rw [h] at hpart
  dsimp only at hpart
  split at hpart
  · rename_i hnil
    rw [List.mem_singleton.mp hpart, remotes_eq h]
    cases listed with
    | nil => exact ⟨.complete, .inr rfl⟩
    | cons remote listed =>
      rw [Grouping.groupBy_cons] at hnil
      cases hnil
  · rcases List.mem_map.mp hpart with ⟨⟨k, group⟩, hgroup, rfl⟩
    refine ⟨k, .inl ?_⟩
    rw [messages_withRemotes h, Grouping.group_eq hgroup]

theorem key_same {copying : Bool} {a b : RemoteRef} (ha : isImap a = true) (hb : isImap b = true)
    (h : key copying a = key copying b) : mailboxPath [a] = mailboxPath [b] := by
  cases copying with
  | true =>
    unfold key at h
    simp only [if_true, Key.whole.injEq] at h
    rw [h]
  | false =>
    rw [key_mailbox ha, key_mailbox hb, Key.mailbox.injEq] at h
    exact h

theorem mailboxPath_cons {rest : List RemoteRef} (h : isImap remote = true) :
    mailboxPath (remote :: rest) = mailboxPath [remote] := by
  cases remote with
  | imap mailbox uidvalidity uid => rfl
  | _ => cases h

variable {named : List RemoteRef}

theorem isIn_path (himap : ∀ remote ∈ named, isImap remote = true)
    (hone : ∀ a ∈ named, ∀ b ∈ named, mailboxPath [a] = mailboxPath [b]) :
    ∀ remote ∈ named, isIn (mailboxPath named) remote = true := by
  intro remote hremote
  rw [isIn_iff (himap remote hremote)]
  cases named with
  | nil => cases hremote
  | cons first rest =>
    rw [mailboxPath_cons (himap first List.mem_cons_self)]
    exact hone remote hremote first (.head _)

theorem dealt_reaches [TextTables] [ImapDates] [ResponseParser] (hpart : part.messages = some named)
    (hsub : named.Sublist listed) (himap : ∀ remote ∈ named, isImap remote = true)
    (hone : ∀ a ∈ named, ∀ b ∈ named, mailboxPath [a] = mailboxPath [b]) (backend : Backend)
    (describe : Backend.Describe) (events : List IoReady) :
    Reaches listed (backend.dealt describe part events) := by
  intro i d command set hd hsent hnames
  rcases backend.dealt_trailed describe part events with hnil | ⟨job, commands, hbegun, htrail⟩
  · rw [hnil] at hd
    cases hd
  · have hover := (Backend.begun_over hpart hbegun).whole backend
    rcases trailed_names hover htrail hd hsent hnames with ⟨hset, hselected⟩
    exact ⟨mailboxPath named, named, hsub, isIn_path himap hone, hset, hselected⟩

theorem divides_of_one (h : remotes op = none) (hmessages : op.messages = some listed) :
    Divides listed ((perMailbox op).map messagesOf) := by
  have hparts : (perMailbox op).map messagesOf = [listed] := by
    unfold perMailbox
    rw [h]
    simp [messagesOf, hmessages]
  rw [hparts]
  exact ⟨by simp, by simp⟩

theorem divides_split (h : remotes op = some listed)
    (himap : ∀ remote ∈ listed, isImap remote = true) (hcopy : isCopy op = false) :
    Divides listed ((perMailbox op).map messagesOf) where
  perm := by
    rw [messages_perMailbox h]
    exact Grouping.joined_perm _ _
  order mailbox := by
    rw [messages_perMailbox h, hcopy]
    have hkey : ∀ remote ∈ listed,
        isIn mailbox remote = decide (key false remote = Key.mailbox mailbox) := by
      intro remote hremote
      rw [key_mailbox (himap remote hremote)]
      cases hin : isIn mailbox remote with
      | true => simp [(isIn_iff (himap remote hremote)).mp hin]
      | false =>
        have hne : mailboxPath [remote] ≠ mailbox := fun heq => by
          rw [(isIn_iff (himap remote hremote)).mpr heq] at hin
          cases hin
        simp [hne]
    have hjoined : ∀ remote ∈ Grouping.joined (Grouping.groupBy (key false) listed),
        isIn mailbox remote = decide (key false remote = Key.mailbox mailbox) := fun remote hremote =>
      hkey remote ((Grouping.joined_perm _ _).subset hremote)
    rw [List.filter_congr hjoined, List.filter_congr hkey]
    exact Grouping.filter_joined_key _ _ _

/-- A copy is one operation a message, so it keeps their order where a message named again is
named directly again. -/
theorem divides_copy (h : remotes op = some listed) (hcopy : isCopy op = true) :
    Divides listed ((perMailbox op).map messagesOf) ↔
      ∀ mailbox, Grouping.Gathered (listed.filter (isIn mailbox)) := by
  have hid : ∀ xs : List RemoteRef, Grouping.joined (Grouping.groupBy (key true) xs) =
      Grouping.joined (Grouping.groupBy id xs) := by
    intro xs
    induction xs using Grouping.groups_induction (id : RemoteRef → RemoteRef) with
    | nil => rfl
    | cons x xs ih =>
      rw [Grouping.joined_cons, Grouping.joined_cons, ← ih]
      simp [key]
  rw [show Divides listed ((perMailbox op).map messagesOf) ↔
      ∀ mailbox, (Grouping.joined (Grouping.groupBy id listed)).filter (isIn mailbox) =
        listed.filter (isIn mailbox) from ?_]
  · refine forall_congr' fun mailbox => ?_
    rw [Grouping.filter_joined (by intro x y hxy; rw [id_eq, id_eq] at hxy; rw [hxy])]
    exact Grouping.joined_id_iff _
  · constructor
    · intro hdivides mailbox
      have horder := hdivides.order mailbox
      rw [messages_perMailbox h, hcopy, hid] at horder
      exact horder
    · intro horder
      constructor
      · rw [messages_perMailbox h]
        exact Grouping.joined_perm _ _
      · intro mailbox
        rw [messages_perMailbox h, hcopy, hid]
        exact horder mailbox

/-! ## A flag's colour is not split -/

/-- A server that keeps neither labels nor colours. -/
def bare : Caps := ⟨⟨.localOnly, .localOnly, ⟨[]⟩⟩, .absent, .absent, .jwz⟩

def agreement : Bytes := wire "a001 OK done\r\n"

section Coloured

attribute [local instance] TextTables.ascii lineParser

theorem agreement_agrees : Session.Agrees agreement "a001" where
  parse := by decide
  long := by decide
  plus := by decide
  search := by decide
  silent := by decide

variable {listed : List RemoteRef}

theorem flag_walk (himap : ∀ remote ∈ listed, isImap remote = true) (hne : listed ≠ [])
    (describe : Backend.Describe) (hue : Hue) :
    uidsOf listed ≠ [] ∧ (connected bare).begun describe (.setFlag listed hue) = .walk .applied
      [selecting (mailboxPath listed) .readWrite,
        .uidStore (setText (uidsOf listed)) "+FLAGS (\\Flagged)" false] := by
  have huids : uidsOf listed ≠ [] := by
    cases listed with
    | nil => exact absurd rfl hne
    | cons remote listed =>
      have hfirst := himap remote (.head _)
      cases remote with
      | imap mailbox uidvalidity uid => simp [uidsOf]
      | _ => cases hfirst
  refine ⟨huids, ?_⟩
  have hset : uidSet listed = some (setText (uidsOf listed)) := by
    unfold uidSet
    have hempty : (uidsOf listed).isEmpty = false := by simpa using huids
    simp [hempty]
  have hstart : (connected bare).begun describe (.setFlag listed hue) = (connected bare).setFlag listed hue := rfl
  rw [hstart]
  unfold Backend.setFlag Backend.over
  rw [hset]
  rfl

variable [ImapDates]

theorem flag_dealt (himap : ∀ remote ∈ listed, isImap remote = true) (hne : listed ≠ [])
    (describe : Backend.Describe) (hue : Hue) :
    ∃ a b, (connected bare).dealt describe (.setFlag listed hue) [.bytes agreement] =
      [⟨some (selecting (mailboxPath listed) .readWrite), a⟩,
        ⟨some (.uidStore (setText (uidsOf listed)) "+FLAGS (\\Flagged)" false), b⟩] := by
  rcases flag_walk himap hne describe hue with ⟨huids, hwalk⟩
  rcases begin_going hwalk with ⟨backend, needs, hbegin, hsession⟩
  have hflagged : "+FLAGS (\\Flagged)".toList.any isLineBreak = false := by decide
  rcases render_store goer [] huids hflagged false (tagText 2) with ⟨line, hline⟩
  have hstate : ((connected bare).talk describe (.setFlag listed hue) [.bytes agreement]).state =
      (backend.feed (.bytes agreement)).1 := by
    unfold Backend.talk
    rw [hbegin]
    rfl
  have hfed := Backend.feed_trail hsession (.bytes agreement)
  have hphase : (opening (mailboxPath listed) .readWrite
      [.uidStore (setText (uidsOf listed)) "+FLAGS (\\Flagged)" false]).phase =
      .running 0 "a001" := rfl
  rcases Session.feed_sends agreement_agrees hphase rfl rfl rfl (fun _ _ => rfl) hline with
    ⟨knew, htrail, _⟩
  rw [htrail] at hfed
  refine ⟨.empty, knew, ?_⟩
  unfold Backend.dealt
  rw [hbegin]
  dsimp only
  rw [hstate, hfed]
  rfl

omit [ImapDates] in
theorem uidsOf_length (himap : ∀ remote ∈ listed, isImap remote = true) :
    (uidsOf listed).length = listed.length := by
  induction listed with
  | nil => rfl
  | cons remote listed ih =>
    have hfirst := himap remote (.head _)
    have hrest := ih fun other hother => himap other (.tail _ hother)
    cases remote with
    | imap mailbox uidvalidity uid =>
      simp only [uidsOf, List.filterMap_cons, List.length_cons] at hrest ⊢
      rw [hrest]
    | _ => cases hfirst

theorem spread_misses (h : op.messages = some listed)
    (himap : ∀ remote ∈ listed, isImap remote = true) (hspread : IsSpread op) :
    ¬ ActsOn op listed := by
  rcases hspread with ⟨remotes, hue, rfl, a, ha, b, hb, hdiffer⟩
  cases h
  intro hacts
  have hne : listed ≠ [] := List.ne_nil_of_mem ha
  let describe : Backend.Describe := ⟨fun _ => "", fun _ => ""⟩
  rcases flag_dealt himap hne describe hue with ⟨first, second, hdealt⟩
  have hwritten : ((connected bare).dealt describe (.setFlag listed hue) [.bytes agreement])[1]? =
      some ⟨some (.uidStore (setText (uidsOf listed)) "+FLAGS (\\Flagged)" false), second⟩ := by
    rw [hdealt]
    rfl
  have hreach := hacts.reaches (.setFlag listed hue) (.head _) (connected bare) describe
    [.bytes agreement] 1 _ _ _ hwritten rfl rfl
  rcases hreach with ⟨mailbox, named, hsub, hin, hset, hselected⟩
  -- One UID for each address: the set is as long as the list, so nothing was left out of it.
  have huids := setText_injective hset
  have hnamed : named = listed := by
    apply hsub.eq_of_length
    rw [← uidsOf_length himap, huids,
      uidsOf_length fun remote hremote => himap remote (hsub.subset hremote)]
  rw [hnamed] at hin
  have hpa := (isIn_iff (himap a ha)).mp (hin a ha)
  have hpb := (isIn_iff (himap b hb)).mp (hin b hb)
  exact hdiffer (hpa.trans hpb.symm)

end Coloured

theorem not_spread_one {hue : Hue} (h : ¬ IsSpread (.setFlag listed hue)) :
    ∀ a ∈ listed, ∀ b ∈ listed, mailboxPath [a] = mailboxPath [b] := by
  intro a ha b hb
  by_contra hne
  exact h ⟨listed, hue, rfl, a, ha, b, hb, hne⟩

theorem whole_messages (h : op.messages = some listed) (hremotes : remotes op = none) :
    (∃ hue, op = .setFlag listed hue) ∨
      ∃ remote sections, op = .fetchSections remote sections ∧ listed = [remote] := by
  cases op with
  | setFlag named hue =>
    cases h
    exact .inl ⟨hue, rfl⟩
  | fetchSections remote sections =>
    cases h
    exact .inr ⟨remote, sections, rfl, rfl⟩
  | _ => simp_all [remotes, ProtoOp.messages]

/-- The parts of an operation, other than a colour over several mailboxes, act on the messages
they name. -/
theorem unspread_reaches [TextTables] [ImapDates] [ResponseParser] (h : op.messages = some listed)
    (himap : ∀ remote ∈ listed, isImap remote = true) (hspread : ¬ IsSpread op)
    (hpart : part ∈ perMailbox op) (backend : Backend) (describe : Backend.Describe)
    (events : List IoReady) : Reaches listed (backend.dealt describe part events) := by
  cases hremotes : remotes op with
  | none =>
    have hwhole : part = op := by
      unfold perMailbox at hpart
      rw [hremotes] at hpart
      exact List.mem_singleton.mp hpart
    rw [hwhole]
    refine dealt_reaches h (List.Sublist.refl _) himap ?_ backend describe events
    rcases whole_messages h hremotes with ⟨hue, rfl⟩ | ⟨remote, sections, rfl, rfl⟩
    · exact not_spread_one hspread
    · intro a ha b hb
      rw [List.mem_singleton.mp ha, List.mem_singleton.mp hb]
  | some named =>
    have hnamed := remotes_eq hremotes
    rw [h, Option.some.injEq] at hnamed
    rw [← hnamed] at hremotes
    rcases part_group hremotes hpart with ⟨k, hgroup | hnone⟩
    · refine dealt_reaches hgroup List.filter_sublist ?_ ?_ backend describe events
      · exact fun remote hremote => himap remote (List.mem_of_mem_filter hremote)
      · intro a ha b hb
        have hka : key (isCopy op) a = k := by simpa using (List.mem_filter.mp ha).2
        have hkb : key (isCopy op) b = k := by simpa using (List.mem_filter.mp hb).2
        exact key_same (himap a (List.mem_of_mem_filter ha)) (himap b (List.mem_of_mem_filter hb))
          (hka.trans hkb.symm)
    · exact dealt_reaches hnone (List.nil_sublist _) (by simp) (by simp) backend describe events

/-- An act reaches the messages it names, whatever the server says, unless it colours flags in
several mailboxes; a copy also keeps their order where a message named again is named directly
again. -/
theorem acts_on_iff {op : ProtoOp} {listed : List RemoteRef} (h : op.messages = some listed)
    (himap : ∀ remote ∈ listed, isImap remote = true) :
    ActsOn op listed ↔ ¬ IsSpread op ∧
      (isCopy op = true → ∀ mailbox, Grouping.Gathered (listed.filter (isIn mailbox))) := by
  constructor
  · intro hacts
    refine ⟨fun hspread => ?_, fun hcopy => ?_⟩
    · have dates : ImapDates := ⟨fun _ => [], fun _ => []⟩
      exact spread_misses h himap hspread hacts
    · have hremotes : remotes op = some listed := by
        cases op with
        | copy named folder => exact h
        | _ => cases hcopy
      exact (divides_copy hremotes hcopy).mp hacts.divides
  · rintro ⟨hspread, hgathered⟩
    refine ⟨?_, fun part hpart => unspread_reaches h himap hspread hpart⟩
    cases hremotes : remotes op with
    | none => exact divides_of_one hremotes h
    | some named =>
      have hnamed := remotes_eq hremotes
      rw [h, Option.some.injEq] at hnamed
      rw [← hnamed] at hremotes
      cases hcopy : isCopy op with
      | false => exact divides_split hremotes himap hcopy
      | true => exact (divides_copy hremotes hcopy).mpr (hgathered hcopy)

/-- Starred in two mailboxes. -/
theorem starred_in_two : ActsOn (.setFlags [.imap "INBOX" 1 5, .imap "Sent" 1 9] none (some .starred))
    [.imap "INBOX" 1 5, .imap "Sent" 1 9] := by
  apply (acts_on_iff rfl (by decide)).mpr
  refine ⟨?_, fun hcopy => absurd hcopy (by decide)⟩
  rintro ⟨remotes, hue, hop, _⟩
  cases hop

/-- Coloured in two mailboxes: the number of a message of one is stored in the other. -/
theorem coloured_in_two : ¬ ActsOn (.setFlag [.imap "INBOX" 1 5, .imap "Sent" 1 9] .red)
    [.imap "INBOX" 1 5, .imap "Sent" 1 9] := by
  have dates : ImapDates := ⟨fun _ => [], fun _ => []⟩
  apply spread_misses rfl (by decide)
  exact ⟨_, _, rfl, .imap "INBOX" 1 5, by decide, .imap "Sent" 1 9, by decide, by decide⟩

end Mailo.Engine.Split
