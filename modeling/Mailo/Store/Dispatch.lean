import Mailo.Store.Rows

/-!
# Addressing a queued operation at the moment it is sent

A queue entry names local messages, and where each stands is asked when the entry leaves. `own`
answers for one entry alone; `inQueue` also holds it behind an earlier entry that waits.
-/

namespace Mailo.Store

open Domain

def syncsToFind : Nat := 3

def passesToFind : Nat := 20

/-- A message the server moved without saying where, and how long it has been looked for. -/
structure Unplaced where
  mailbox : Option String
  syncs : Nat
  passes : Nat
deriving DecidableEq

/-- Where a message an operation names is, as the moment it is sent sees it. -/
inductive Place where
  | gone
  | «at» (remotes : List RemoteRef)
  | unplaced (unplaced : Unplaced)
deriving DecidableEq

/-- What becomes of the addresses kept for a deletion once the server answered it. -/
inductive Answered where
  | done | refused
deriving DecidableEq

/-- Where each message is on the server now. -/
abbrev Lookup := MessageId → Except StoreError Place

def sameFolder (a b : String) : Bool :=
  a == b || (Text.eqIgnoreAsciiCase a.toList "INBOX".toList &&
    Text.eqIgnoreAsciiCase b.toList "INBOX".toList)

namespace Unplaced

def told : String := "The server moved this message without saying where it put it"

def undone : String := "so this change was not sent and has been undone here"

/-- Why an operation on this message is given up, `none` while it is worth waiting. -/
def givenUp (unplaced : Unplaced) : Option String :=
  match unplaced.mailbox with
  | some folder =>
    if syncsToFind ≤ unplaced.syncs then
      some (told ++ ", and " ++ toString unplaced.syncs ++ " syncs of " ++ folder ++
        " since have not found it there, " ++ undone ++ ".")
    else if passesToFind ≤ unplaced.passes then
      some (told ++ ", into " ++ folder ++ ", and " ++ folder ++
        " has not been synced in the " ++ toString unplaced.passes ++ " passes since, " ++
        undone ++ ".")
    else none
  | none =>
    if passesToFind ≤ unplaced.passes then
      some (told ++ ", and " ++ toString unplaced.passes ++
        " passes since have not found it, " ++ undone ++ ".")
    else none

end Unplaced

/-- The messages an intent is about: none for one that names no message already held. -/
def messagesOf : RemoteIntent → List MessageId
  | .setFlags messages _ _ | .setFlag messages _ | .setMailbox messages _
  | .setLabels messages _ _ | .file messages _ | .copy messages _ | .addKeyword messages _
  | .destroy messages => messages
  | .send _ _ _ _ _ | .folder _ | .append _ _ _ _ | .keepDraft _ _ _ | .dropDraft _ _ _ => []

def unaddressed : RemoteIntent → Option ProtoOp
  | .send draft raw mailFrom rcptTo delivery => some (.submit draft raw mailFrom rcptTo delivery)
  | .folder work => some (.folder work)
  | .append mailbox flags date raw => some (.append mailbox flags date raw)
  | .keepDraft draft mailbox messageId => some (.keepDraft draft mailbox messageId)
  | .dropDraft draft mailbox messageId => some (.dropDraft draft mailbox messageId)
  | .setFlags _ _ _ | .setMailbox _ _ | .setLabels _ _ _ | .setFlag _ _ | .file _ _ | .copy _ _
  | .addKeyword _ _ | .destroy _ => none

def draftCopyOf : RemoteIntent → Option DraftId
  | .keepDraft draft _ _ | .dropDraft draft _ _ => some draft
  | _ => none

def addressed (intent : RemoteIntent) (onServer : MessageId → Bool) : List MessageId :=
  (messagesOf intent).foldl (fun out message =>
    if !out.contains message && onServer message then out ++ [message] else out) []

def readdress (op : ProtoOp) (remotes : List RemoteRef) : ProtoOp :=
  match op with
  | .setFlags _ read star => .setFlags remotes read star
  | .setFlag _ hue => .setFlag remotes hue
  | .setMailbox _ role => .setMailbox remotes role
  | .setLabels _ add remove => .setLabels remotes add remove
  | .file _ folder => .file remotes folder
  | .copy _ folder => .copy remotes folder
  | .addKeyword _ keyword => .addKeyword remotes keyword
  | .destroy _ => .destroy remotes
  | other => other

/-- A copy names one address of each message, and none of one its folder holds already. -/
def copiedFrom (op : ProtoOp) (found : List RemoteRef) : List RemoteRef :=
  match op with
  | .copy _ folder =>
    if found.any fun remote => sameFolder (columns remote).mailbox folder then []
    else found.take 1
  | _ => found

/-- Each remote once, in the order first named. -/
def pushNew (remotes more : List RemoteRef) : List RemoteRef :=
  more.foldl (fun out remote => if out.contains remote then out else out ++ [remote]) remotes

/-- The walk of `own` over the messages an entry names. -/
def ownFrom (op : ProtoOp) (addresses : Lookup) (remotes : List RemoteRef) (held waits : Bool) :
    List MessageId → Except StoreError Dispatch
  | [] =>
    if waits then .ok .wait
    else if !held then .ok .moot
    else .ok (.send (readdress op remotes))
  | message :: rest =>
    match addresses message with
    | .error error => .error error
    | .ok .gone => ownFrom op addresses remotes held waits rest
    | .ok (.unplaced unplaced) =>
      match unplaced.givenUp with
      | some why => .ok (.lost why)
      | none => ownFrom op addresses remotes held true rest
    | .ok (.at found) =>
      if found.isEmpty then ownFrom op addresses remotes held true rest
      else ownFrom op addresses (pushNew remotes (copiedFrom op found)) true waits rest

/-- What one entry asks of the server now, on its own account. -/
def own (op : ProtoOp) (messages : List MessageId) (addresses : Lookup) :
    Except StoreError Dispatch :=
  if messages.isEmpty then .ok (.send op) else ownFrom op addresses [] false false messages

namespace Place

/-- Held, and at no address yet. -/
def waiting : Place → Bool
  | .at found => found.isEmpty
  | .unplaced row => row.givenUp.isNone
  | .gone => false

def lost : Place → Bool
  | .unplaced row => row.givenUp.isSome
  | _ => false

end Place

/-- Where every message asked about stands, each asked once. -/
def known (messages : List MessageId) (addresses : Lookup) :
    Except StoreError (List (MessageId × Place)) :=
  messages.eraseDups.mapM fun message => (addresses message).map fun found => (message, found)

def placeIn (places : List (MessageId × Place)) (message : MessageId) : Place :=
  ((places.find? fun row => row.1 = message).map Prod.snd).getD .gone

/-- The messages held back by the entries before, each of which waits for a message of its own or
behind another that waits. -/
def blockedBy (place : MessageId → Place) (earlier : List (List MessageId)) : List MessageId :=
  earlier.foldl (fun blocked before =>
    if !(before.any fun m => (place m).lost) &&
        (before.any blocked.contains || before.any fun m => (place m).waiting) then
      blocked ++ before
    else blocked) []

/-- What an entry asks of the server, given the messages of every entry queued before it. -/
def inQueue (earlier : List (List MessageId)) (op : ProtoOp) (messages : List MessageId)
    (addresses : Lookup) : Except StoreError Dispatch :=
  (known (earlier.flatten ++ messages) addresses).bind fun places =>
    let place := placeIn places
    let cached : Lookup := fun message => .ok (place message)
    if messages.any fun m => (place m).lost then own op messages cached
    else if messages.any (blockedBy place earlier).contains then .ok .wait
    else own op messages cached

/-! ## What `own` answers -/

section Own

variable (place : MessageId → Place)

/-- An answer that never fails. -/
abbrev answer : Lookup := fun message => .ok (place message)

variable (op : ProtoOp)

theorem ownFrom_cons (remotes : List RemoteRef) (held waits : Bool) (message : MessageId)
    (rest : List MessageId) :
    ownFrom op (answer place) remotes held waits (message :: rest) =
      match place message with
      | .gone => ownFrom op (answer place) remotes held waits rest
      | .unplaced unplaced =>
        match unplaced.givenUp with
        | some why => .ok (.lost why)
        | none => ownFrom op (answer place) remotes held true rest
      | .at found =>
        if found.isEmpty then ownFrom op (answer place) remotes held true rest
        else ownFrom op (answer place) (pushNew remotes (copiedFrom op found)) true waits rest := by
  rw [ownFrom]
  cases h : place message <;> simp [answer, h]

variable {messages : List MessageId}

theorem ownFrom_lost (remotes : List RemoteRef) (held waits : Bool)
    (h : ∃ m ∈ messages, (place m).lost = true) :
    ∃ why, ownFrom op (answer place) remotes held waits messages = .ok (.lost why) := by
  induction messages generalizing remotes held waits with
  | nil =>
    obtain ⟨m, hm, _⟩ := h
    exact absurd hm List.not_mem_nil
  | cons head rest ih =>
    have hrest : (place head).lost = false → ∃ m ∈ rest, (place m).lost = true := by
      intro hhead
      obtain ⟨m, hm, hlost⟩ := h
      rcases List.mem_cons.mp hm with rfl | hm
      · rw [hhead] at hlost
        cases hlost
      · exact ⟨m, hm, hlost⟩
    rw [ownFrom_cons]
    cases hplace : place head with
    | gone => exact ih _ _ _ (hrest (by rw [hplace]; rfl))
    | «at» found =>
      have hlost := hrest (by rw [hplace]; rfl)
      dsimp only
      split
      · exact ih _ _ _ hlost
      · exact ih _ _ _ hlost
    | unplaced unplaced =>
      dsimp only
      cases hgiven : unplaced.givenUp with
      | some why => exact ⟨why, rfl⟩
      | none => exact ih _ _ _ (hrest (by simp [hplace, Place.lost, hgiven]))

/-- With nothing given up: a message without an address makes the entry wait, and one with an
address makes it sent. -/
theorem ownFrom_kept (remotes : List RemoteRef) (held waits : Bool)
    (h : ∀ m ∈ messages, (place m).lost = false) :
    ∃ sent, ownFrom op (answer place) remotes held waits messages =
      if waits || messages.any (fun m => (place m).waiting) then .ok .wait
      else if held || messages.any (fun m => place m ≠ .gone) then .ok (.send (readdress op sent))
      else .ok .moot := by
  induction messages generalizing remotes held waits with
  | nil =>
    refine ⟨remotes, ?_⟩
    cases waits <;> cases held <;> rfl
  | cons head rest ih =>
    have hrest : ∀ m ∈ rest, (place m).lost = false := fun m hm =>
      h m (.tail _ hm)
    have hhead := h head (.head _)
    rw [ownFrom_cons]
    cases hplace : place head with
    | gone =>
      obtain ⟨sent, hsent⟩ := ih remotes held waits hrest
      refine ⟨sent, ?_⟩
      simpa [hplace, Place.waiting] using hsent
    | «at» found =>
      cases hfound : found.isEmpty with
      | true =>
        obtain ⟨sent, hsent⟩ := ih remotes held true hrest
        refine ⟨sent, ?_⟩
        simpa [hplace, Place.waiting, hfound] using hsent
      | false =>
        obtain ⟨sent, hsent⟩ := ih (pushNew remotes (copiedFrom op found)) true waits hrest
        refine ⟨sent, ?_⟩
        simpa [hplace, Place.waiting, hfound] using hsent
    | unplaced unplaced =>
      cases hgiven : unplaced.givenUp with
      | some why =>
        simp [hplace, Place.lost, hgiven] at hhead
      | none =>
        obtain ⟨sent, hsent⟩ := ih remotes held true hrest
        refine ⟨sent, ?_⟩
        simpa [hplace, Place.waiting, hgiven] using hsent

theorem ownFrom_congr {place other : MessageId → Place} (remotes : List RemoteRef)
    (held waits : Bool) (h : ∀ m ∈ messages, place m = other m) :
    ownFrom op (answer place) remotes held waits messages =
      ownFrom op (answer other) remotes held waits messages := by
  induction messages generalizing remotes held waits with
  | nil => rfl
  | cons head rest ih =>
    have hrest : ∀ m ∈ rest, place m = other m := fun m hm => h m (.tail _ hm)
    rw [ownFrom_cons, ownFrom_cons, h head List.mem_cons_self]
    cases other head with
    | gone => exact ih _ _ _ hrest
    | «at» found =>
      dsimp only
      split <;> exact ih _ _ _ hrest
    | unplaced unplaced =>
      dsimp only
      split
      · rfl
      · exact ih _ _ _ hrest

end Own

/-! ## What an entry is answered in its queue -/

section Queue

variable (place : MessageId → Place)

theorem known_answer (messages : List MessageId) :
    known messages (answer place) = .ok (messages.eraseDups.map fun m => (m, place m)) := by
  unfold known
  generalize messages.eraseDups = ids
  induction ids with
  | nil => rfl
  | cons head rest ih =>
    rw [List.mapM_cons, ih]
    rfl

variable {messages : List MessageId}

theorem placeIn_known {message : MessageId} (h : message ∈ messages) :
    placeIn (messages.eraseDups.map fun m => (m, place m)) message = place message := by
  have hmem : message ∈ messages.eraseDups := List.mem_eraseDups.mpr h
  generalize messages.eraseDups = ids at hmem
  unfold placeIn
  induction ids with
  | nil => exact absurd hmem List.not_mem_nil
  | cons head rest ih =>
    by_cases heq : head = message
    · simp [heq]
    · have hrest : message ∈ rest :=
        (List.mem_cons.mp hmem).resolve_left fun heq' => heq heq'.symm
      simpa [heq] using ih hrest

/-- An entry that has no message given up waits behind the entries before it, for a message they
hold back or for one of its own. -/
def Holds (earlier : List (List MessageId)) (messages : List MessageId) : Prop :=
  (∀ m ∈ messages, (place m).lost = false) ∧
    ((∃ m ∈ messages, m ∈ blockedBy place earlier) ∨ ∃ m ∈ messages, (place m).waiting = true)

variable (earlier : List (List MessageId))

/-- One entry more holds back its messages when it waits itself, and nothing otherwise. -/
theorem mem_blockedBy_append (before : List MessageId) (m : MessageId) :
    m ∈ blockedBy place (earlier ++ [before]) ↔
      m ∈ blockedBy place earlier ∨ (Holds place earlier before ∧ m ∈ before) := by
  have hcond : (!(before.any fun m => (place m).lost) &&
      (before.any (blockedBy place earlier).contains ||
        before.any fun m => (place m).waiting)) = true ↔ Holds place earlier before := by
    simp [Holds]
  have hstep : blockedBy place (earlier ++ [before]) =
      if (!(before.any fun m => (place m).lost) &&
        (before.any (blockedBy place earlier).contains ||
          before.any fun m => (place m).waiting)) = true then blockedBy place earlier ++ before
      else blockedBy place earlier := by
    rw [blockedBy, List.foldl_append]
    rfl
  rw [hstep]
  by_cases h : Holds place earlier before
  · rw [if_pos (hcond.mpr h), List.mem_append]
    simp [h]
  · rw [if_neg (mt hcond.mp h)]
    simp [h]

private theorem any_congr_mem {α : Type} {l : List α} {p q : α → Bool}
    (h : ∀ a ∈ l, p a = q a) : l.any p = l.any q := by
  rw [Bool.eq_iff_iff, List.any_eq_true, List.any_eq_true]
  exact exists_congr fun a => and_congr_right fun ha => by rw [h a ha]

theorem blockedBy_congr {place other : MessageId → Place} {earlier : List (List MessageId)}
    (h : ∀ m ∈ earlier.flatten, place m = other m) :
    blockedBy place earlier = blockedBy other earlier := by
  unfold blockedBy
  refine List.foldl_ext _ _ _ fun blocked before hbefore => ?_
  have hsame : ∀ m ∈ before, place m = other m := fun m hm =>
    h m (List.mem_flatten.mpr ⟨before, hbefore, hm⟩)
  have hany : ∀ p : Place → Bool, (before.any fun m => p (place m)) =
      before.any fun m => p (other m) := fun p =>
    any_congr_mem fun m hm => by rw [hsame m hm]
  rw [hany Place.lost, hany Place.waiting]

theorem inQueue_answer (op : ProtoOp) (messages : List MessageId) :
    inQueue earlier op messages (answer place) =
      if messages.any fun m => (place m).lost then own op messages (answer place)
      else if messages.any (blockedBy place earlier).contains then .ok .wait
      else own op messages (answer place) := by
  have hplace : ∀ m ∈ earlier.flatten ++ messages,
      placeIn ((earlier.flatten ++ messages).eraseDups.map fun m => (m, place m)) m = place m :=
    fun m hm => placeIn_known place hm
  have hmine : ∀ m ∈ messages, _ := fun m hm => hplace m (List.mem_append_right _ hm)
  have hown : own op messages (fun m => .ok (placeIn
      ((earlier.flatten ++ messages).eraseDups.map fun m => (m, place m)) m)) =
      own op messages (answer place) := by
    unfold own
    rw [ownFrom_congr op [] false false hmine]
  unfold inQueue
  rw [known_answer]
  simp only [Except.bind]
  rw [hown, blockedBy_congr fun m hm => hplace m (List.mem_append_left _ hm)]
  have hlost : (messages.any fun m => (placeIn
      ((earlier.flatten ++ messages).eraseDups.map fun m => (m, place m)) m).lost) =
      messages.any fun m => (place m).lost :=
    any_congr_mem fun m hm => by rw [hmine m hm]
  rw [hlost]

theorem own_lost (op : ProtoOp) (h : ∃ m ∈ messages, (place m).lost = true) :
    ∃ why, own op messages (answer place) = .ok (.lost why) := by
  have hne : messages.isEmpty = false := by
    cases messages with
    | nil =>
      obtain ⟨m, hm, _⟩ := h
      exact absurd hm List.not_mem_nil
    | cons head rest => rfl
  unfold own
  rw [hne]
  exact ownFrom_lost place op [] false false h

theorem inQueue_kept (op : ProtoOp) (h : ∀ m ∈ messages, (place m).lost = false) :
    (Holds place earlier messages ∧ inQueue earlier op messages (answer place) = .ok .wait) ∨
    (¬ Holds place earlier messages ∧
      ((messages = [] ∧ inQueue earlier op messages (answer place) = .ok (.send op)) ∨
        (messages ≠ [] ∧ (∀ m ∈ messages, place m = .gone) ∧
          inQueue earlier op messages (answer place) = .ok .moot) ∨
        ((∃ m ∈ messages, place m ≠ .gone) ∧
          ∃ sent, inQueue earlier op messages (answer place) = .ok (.send (readdress op sent))))) := by
  rw [inQueue_answer]
  have hlost : (messages.any fun m => (place m).lost) = false := by
    simpa using h
  rw [hlost, if_neg Bool.false_ne_true]
  by_cases hblocked : messages.any (blockedBy place earlier).contains = true
  · refine Or.inl ⟨⟨h, Or.inl ?_⟩, if_pos hblocked⟩
    simpa using hblocked
  · rw [if_neg hblocked]
    have hfree : ¬ ∃ m ∈ messages, m ∈ blockedBy place earlier := by simpa using hblocked
    cases messages with
    | nil => exact Or.inr ⟨by simp [Holds], Or.inl ⟨rfl, rfl⟩⟩
    | cons head rest =>
      obtain ⟨sent, hsent⟩ := ownFrom_kept place op [] false false h
      have hown : own op (head :: rest) (answer place) =
          ownFrom op (answer place) [] false false (head :: rest) := rfl
      rw [hown, hsent]
      simp only [Bool.false_or]
      by_cases hwaiting : ((head :: rest).any fun m => (place m).waiting) = true
      · refine Or.inl ⟨⟨h, Or.inr ?_⟩, if_pos hwaiting⟩
        simpa using hwaiting
      · have hnot : ¬ Holds place earlier (head :: rest) := by
          rintro ⟨_, hor⟩
          exact hor.elim hfree fun hw => hwaiting (by simpa using hw)
        refine Or.inr ⟨hnot, Or.inr ?_⟩
        rw [if_neg hwaiting]
        by_cases hgone : ((head :: rest).any fun m => decide (place m ≠ .gone)) = true
        · refine Or.inr ⟨by simpa using hgone, sent, if_pos hgone⟩
        · refine Or.inl ⟨List.cons_ne_nil _ _, ?_, if_neg hgone⟩
          simpa using hgone

end Queue

/-! ## The order of a queue -/

structure Queued where
  op : ProtoOp
  messages : List MessageId
deriving DecidableEq

def dispatchAt (queue : List Queued) (place : MessageId → Place) (i : Fin queue.length) :
    Except StoreError Dispatch :=
  inQueue ((queue.take i).map Queued.messages) queue[i].op queue[i].messages (answer place)

/-- Two entries name a message in common. -/
def Shares (a b : Queued) : Prop := ∃ m ∈ a.messages, m ∈ b.messages

variable {place : MessageId → Place} {queue : List Queued}

theorem dispatchAt_wait {i : Fin queue.length} :
    dispatchAt queue place i = .ok .wait ↔
      Holds place ((queue.take i).map Queued.messages) queue[i].messages := by
  unfold dispatchAt
  constructor
  · intro h
    by_cases hlost : ∃ m ∈ queue[i].messages, (place m).lost = true
    · have hany : (queue[i].messages.any fun m => (place m).lost) = true := by simpa using hlost
      obtain ⟨why, hwhy⟩ := own_lost place queue[i].op hlost
      rw [inQueue_answer, if_pos hany, hwhy] at h
      cases h
    · have hkept : ∀ m ∈ queue[i].messages, (place m).lost = false := by simpa using hlost
      rcases inQueue_kept place _ queue[i].op hkept with ⟨hholds, _⟩ | ⟨_, hrest⟩
      · exact hholds
      · rcases hrest with ⟨_, hs⟩ | ⟨_, _, hs⟩ | ⟨_, sent, hs⟩ <;> rw [hs] at h <;> cases h
  · intro h
    rcases inQueue_kept place _ queue[i].op h.1 with ⟨_, hwait⟩ | ⟨hnot, _⟩
    · exact hwait
    · exact absurd h hnot

/-- The messages held back before a place are those of the entries before it that wait. -/
theorem mem_blockedBy_take {n : Nat} (hn : n ≤ queue.length) {m : MessageId} :
    m ∈ blockedBy place ((queue.take n).map Queued.messages) ↔
      ∃ k : Fin queue.length, k < n ∧ dispatchAt queue place k = .ok .wait ∧
        m ∈ queue[k].messages := by
  induction n with
  | zero => simp [blockedBy]
  | succ n ih =>
    have hlt : n < queue.length := hn
    rw [List.take_succ_eq_append_getElem hlt, List.map_append, List.map_singleton,
      mem_blockedBy_append, ih (Nat.le_of_lt hlt)]
    constructor
    · rintro (⟨k, hk, hwait, hm⟩ | ⟨hholds, hm⟩)
      · exact ⟨k, by omega, hwait, hm⟩
      · exact ⟨⟨n, hlt⟩, by simp, dispatchAt_wait.mpr hholds, hm⟩
    · rintro ⟨k, hk, hwait, hm⟩
      by_cases heq : (k : Nat) = n
      · obtain rfl : k = ⟨n, hlt⟩ := Fin.ext heq
        exact Or.inr ⟨dispatchAt_wait.mp hwait, hm⟩
      · exact Or.inl ⟨k, by omega, hwait, hm⟩

/-- An entry that waits makes every later one that shares a message with it and has none given up
wait; an entry is lost exactly when it names a message given up; it is moot exactly when it names
messages, all of them gone, and none of them is named by an earlier entry that waits; one that
names no message is sent. -/
theorem dispatch_never_overtakes (queue : List Queued) (place : MessageId → Place) :
    (∀ i j : Fin queue.length, i < j → dispatchAt queue place i = .ok .wait →
      Shares queue[i] queue[j] → (∀ m ∈ queue[j].messages, (place m).lost = false) →
      dispatchAt queue place j = .ok .wait) ∧
    (∀ i : Fin queue.length, (∃ why, dispatchAt queue place i = .ok (.lost why)) ↔
      ∃ m ∈ queue[i].messages, (place m).lost = true) ∧
    (∀ i : Fin queue.length, dispatchAt queue place i = .ok .moot ↔
      queue[i].messages ≠ [] ∧ (∀ m ∈ queue[i].messages, place m = .gone) ∧
      ∀ k < i, dispatchAt queue place k = .ok .wait → ¬ Shares queue[k] queue[i]) ∧
    (∀ i : Fin queue.length, queue[i].messages = [] →
      dispatchAt queue place i = .ok (.send queue[i].op)) := by
  have hlost : ∀ i : Fin queue.length, (∃ m ∈ queue[i].messages, (place m).lost = true) →
      ∃ why, dispatchAt queue place i = .ok (.lost why) := by
    intro i h
    have hany : (queue[i].messages.any fun m => (place m).lost) = true := by simpa using h
    obtain ⟨why, hwhy⟩ := own_lost place queue[i].op h
    exact ⟨why, by rw [dispatchAt, inQueue_answer, if_pos hany, hwhy]⟩
  refine ⟨?_, ?_, ?_, ?_⟩
  · intro i j hij hwait ⟨m, hmi, hmj⟩ hkept
    refine dispatchAt_wait.mpr ⟨hkept, Or.inl ⟨m, hmj, ?_⟩⟩
    exact (mem_blockedBy_take (Nat.le_of_lt j.isLt)).mpr ⟨i, hij, hwait, hmi⟩
  · intro i
    refine ⟨fun ⟨why, hwhy⟩ => ?_, hlost i⟩
    by_contra hnone
    have hkept : ∀ m ∈ queue[i].messages, (place m).lost = false := by simpa using hnone
    unfold dispatchAt at hwhy
    rcases inQueue_kept place _ queue[i].op hkept with ⟨_, hs⟩ | ⟨_, hrest⟩
    · rw [hs] at hwhy
      cases hwhy
    · rcases hrest with ⟨_, hs⟩ | ⟨_, _, hs⟩ | ⟨_, sent, hs⟩ <;> rw [hs] at hwhy <;> cases hwhy
  · intro i
    have hshared : (∃ m ∈ queue[i].messages,
        m ∈ blockedBy place ((queue.take i).map Queued.messages)) ↔
        ∃ k < i, dispatchAt queue place k = .ok .wait ∧ Shares queue[k] queue[i] := by
      constructor
      · rintro ⟨m, hm, hblocked⟩
        obtain ⟨k, hk, hwait, hmk⟩ := (mem_blockedBy_take (Nat.le_of_lt i.isLt)).mp hblocked
        exact ⟨k, hk, hwait, m, hmk, hm⟩
      · rintro ⟨k, hk, hwait, m, hmk, hm⟩
        exact ⟨m, hm, (mem_blockedBy_take (Nat.le_of_lt i.isLt)).mpr ⟨k, hk, hwait, hmk⟩⟩
    constructor
    · intro hmoot
      have hkept : ∀ m ∈ queue[i].messages, (place m).lost = false := by
        by_contra hnot
        obtain ⟨why, hwhy⟩ := hlost i (by simpa using hnot)
        rw [hwhy] at hmoot
        cases hmoot
      unfold dispatchAt at hmoot
      rcases inQueue_kept place _ queue[i].op hkept with ⟨_, hs⟩ | ⟨hfree, hrest⟩
      · rw [hs] at hmoot
        cases hmoot
      · rcases hrest with ⟨_, hs⟩ | ⟨hne, hgone, _⟩ | ⟨_, sent, hs⟩
        · rw [hs] at hmoot
          cases hmoot
        · refine ⟨hne, hgone, fun k hk hwait hshares => hfree ⟨hkept, Or.inl ?_⟩⟩
          exact hshared.mpr ⟨k, hk, hwait, hshares⟩
        · rw [hs] at hmoot
          cases hmoot
    · rintro ⟨hne, hgone, hfree⟩
      have hkept : ∀ m ∈ queue[i].messages, (place m).lost = false := by
        intro m hm
        rw [hgone m hm]
        rfl
      have hnot : ¬ Holds place ((queue.take i).map Queued.messages) queue[i].messages := by
        rintro ⟨_, hblocked | ⟨m, hm, hwaiting⟩⟩
        · obtain ⟨k, hk, hwait, hshares⟩ := hshared.mp hblocked
          exact hfree k hk hwait hshares
        · rw [hgone m hm] at hwaiting
          cases hwaiting
      rcases inQueue_kept place _ queue[i].op hkept with ⟨hholds, _⟩ | ⟨_, hrest⟩
      · exact absurd hholds hnot
      · rcases hrest with ⟨hnil, _⟩ | ⟨_, _, hs⟩ | ⟨⟨m, hm, hhere⟩, _⟩
        · exact absurd hnil hne
        · exact hs
        · exact absurd (hgone m hm) hhere
  · intro i hnil
    unfold dispatchAt
    rw [inQueue_answer, hnil]
    rfl

/-- A gone message keeps its entry waiting behind an earlier one that names it and waits: the
first entry waits for an address of the second message, and the second, whose only message is
gone, waits with it. -/
theorem dispatch_gone_behind_wait :
    let queue : List Queued := [⟨.setMailbox [] .archive, [⟨1⟩, ⟨2⟩]⟩, ⟨.setMailbox [] .trash, [⟨1⟩]⟩]
    let place : MessageId → Place := fun m => if m = ⟨2⟩ then .at [] else .gone
    ¬ (dispatchAt queue place ⟨1, by decide⟩ = .ok .moot ↔
      queue[1].messages ≠ [] ∧ ∀ m ∈ queue[1].messages, place m = .gone) := by
  decide

/-! ## The local changes an intent stands for

What the server is being asked to do is what is put back over the server's word until the server
agrees. Every such change sets a field of one message the intent names.
-/

/-- The fields an intent asks for, the same of every message it names. -/
def asksFor : RemoteIntent → List Setting
  | .setFlags _ read star => (read.map Setting.read).toList ++ (star.map Setting.star).toList
  | .setFlag _ hue => [.star .starred, .flag hue]
  | .setMailbox _ role => [.mailbox role]
  | .setLabels _ add remove =>
    (add.map fun label => .label label .in) ++ remove.map fun label => .label label .out
  | .file _ label => [.mailbox .archive, .label label .in]
  | .copy _ label => [.label label .in]
  | .addKeyword _ _ | .destroy _ | .send _ _ _ _ _ | .folder _ | .append _ _ _ _
  | .keepDraft _ _ _ | .dropDraft _ _ _ => []

def pendingOf (intent : RemoteIntent) : List (MessageId × List Setting) :=
  (messagesOf intent).map fun id => (id, asksFor intent)

def draftOf : ProtoOp → Option DraftId
  | .submit draft _ _ _ _ | .keepDraft draft _ _ | .dropDraft draft _ _ => some draft
  | _ => none

end Mailo.Store
