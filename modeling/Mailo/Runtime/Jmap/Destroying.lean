import Mailo.Proto.Jmap.Server

/-!
# What a JMAP account destroys

The operations that destroy emails, as the requests they make one after another. Each asks first
where the emails are, and then destroys the ones that answer allows; between the two requests other
clients change the server as they like.
-/

namespace Mailo.Runtime.Jmap

open Domain Proto Proto.Jmap Library
open Proto.Search (Mailboxes)

inductive Request where
  | mailboxes
  | get (ids : List String)
  | copies (mailbox messageId : String)
  | upload (raw : Bytes)
  | «import» (mailbox : String) (keywords : List String) (messageId : String)
  | set (destroy : List String)
deriving DecidableEq

inductive Answer where
  | mailboxes (list : Mailboxes)
  | emails (found : List EmailSummary)
  | blob
  | result (result : SetResult)
  | failed (error : ProtoError)
deriving DecidableEq

/-- What an operation asks, one request after another, and what it comes to. -/
inductive Asking where
  | done (outcome : Except ProtoError Unit)
  | ask (request : Request) (next : Answer → Asking)

/-- Whether a request reads what the server says of emails. -/
def Request.reads : Request → Bool
  | .get _ | .copies _ _ => true
  | _ => false

/-! ## Operations -/

def emailIds (remotes : List RemoteRef) : List String :=
  remotes.foldl (fun ids remote =>
    match remote with
    | .jmap id => if ids.contains id then ids else ids ++ [id]
    | _ => ids) []

def permanent (text : String) : ProtoError := .refused .permanent text

def unanswered : Answer → Except ProtoError Unit
  | .failed error => .error error
  | _ => .error (.malformed "JMAP: no usable answer")

namespace Asking

/-- The emails an answer lists. -/
def found (answer : Answer) (next : List EmailSummary → Asking) : Asking :=
  match answer with
  | .emails found => next found
  | other => done (unanswered other)

/-- One `Email/set`, succeeding when every email was changed or is already gone. -/
def set (destroy : List String) : Asking :=
  if destroy.isEmpty then done (.ok ())
  else
    ask (.set destroy) fun
      | .result result =>
        done (match result.firstRefusal "changing the message" with
          | some error => .error error
          | none => .ok ())
      | other => done (unanswered other)

/-- Whether an email is held in mailboxes of a list and nowhere else. -/
def onlyIn (mailboxes : List String) (email : EmailSummary) : Bool :=
  !email.mailboxIds.isEmpty && email.mailboxIds.all fun held => mailboxes.contains held

def inTrashOnly (mailboxes : Mailboxes) (remotes : List RemoteRef) : Asking :=
  match mailboxes.idForRole .trash with
  | none => set []
  | some trash =>
    let ids := emailIds remotes
    if ids.isEmpty then set []
    else
      ask (.get ids) fun answer =>
        found answer fun emails => set ((emails.filter (onlyIn [trash])).map EmailSummary.id)

/-- Destroy the emails when the server holds every one of them in Trash or Junk and nowhere
else. -/
def destroyable (mailboxes : Mailboxes) (remotes : List RemoteRef) : Asking :=
  let bins := [MailboxRole.trash, .spam].filterMap mailboxes.idForRole
  let ids := emailIds remotes
  if ids.isEmpty then set []
  else
    ask (.get ids) fun answer =>
      found answer fun emails =>
        match emails.find? fun email => !onlyIn bins email with
        | some kept =>
          done (.error (permanent ("email " ++ kept.id ++
            " is no longer only in Trash or Junk on the server, so nothing was deleted")))
        | none => set (emails.map EmailSummary.id)

/-- Put a copy in the Drafts mailbox in place of the draft's copies already there, or with none
only remove them. -/
def draftCopy (mailboxes : Mailboxes) (mailbox : MailboxRef) (messageId : String)
    (raw : Option Bytes) : Asking :=
  match mailboxes.idForPath mailbox.path with
  | none => done (.ok ())
  | some drafts =>
    if mailboxes.idForRole .drafts ≠ some drafts then
      done (.error (permanent (reprStr mailbox.path ++
        " is not the server's Drafts mailbox, so no draft was kept in it")))
    else
      ask (.copies drafts ("<" ++ messageId ++ ">")) fun answer =>
        found answer fun emails =>
          let copies := ((emails.filter fun email => email.hasKeyword "$draft").filter
            (onlyIn [drafts])).map EmailSummary.id
          match raw with
          | none => set copies
          | some bytes =>
            ask (.upload bytes) fun
              | .blob =>
                ask (.import drafts ["$draft", "$seen"] messageId) fun
                  | .result result =>
                    match result.firstRefusal "keeping the draft on the server" with
                    | some error => done (.error error)
                    | none => set copies
                  | other => done (unanswered other)
              | other => done (unanswered other)

end Asking

/-- What an operation reads here: the mailbox list held, and a draft's copy as it stands now. -/
structure Client where
  mailboxes : Option Mailboxes
  copy : DraftId → Except ProtoError (Option Bytes)

def removing (client : Client) (op : ProtoOp) (mailboxes : Mailboxes) : Option Asking :=
  match op with
  | .expunge remotes => some (.inTrashOnly mailboxes remotes)
  | .destroy remotes => some (.destroyable mailboxes remotes)
  | .keepDraft draft mailbox messageId =>
    some (match client.copy draft with
      | .error error => .done (.error error)
      | .ok none => .done (.ok ())
      | .ok (some raw) => .draftCopy mailboxes mailbox messageId (some raw))
  | .dropDraft _ mailbox messageId => some (.draftCopy mailboxes mailbox messageId none)
  | _ => none

/-- Do one operation, the mailbox list read first where none is held. -/
def run (client : Client) (op : ProtoOp) : Option Asking :=
  match client.mailboxes with
  | some mailboxes => removing client op mailboxes
  | none =>
    (removing client op ⟨[]⟩).map fun _ =>
      .ask .mailboxes fun
        | .mailboxes list => (removing client op list).getD (.done (.ok ()))
        | other => .done (unanswered other)

/-- What the server chooses as it carries out a request. -/
structure Choice where
  newId : String
  refuses : String → Option SetError

/-- What a request is answered, and the server after it. -/
def serve (server : Server) (choice : Choice) : Request → Answer × Server
  | .mailboxes => (.mailboxes server.mailboxes, server)
  | .get ids => (.emails (server.get ids), server)
  | .copies mailbox messageId => (.emails (server.query mailbox messageId), server)
  | .upload _ => (.blob, server)
  | .import mailbox keywords messageId =>
    let (after, result) := server.import choice.refuses choice.newId mailbox keywords messageId
    (.result result, after)
  | .set ids =>
    let (after, result) := server.destroy choice.refuses ids
    (.result result, after)

/-- One `Email/set` carried out: what it asked to destroy, the mailbox list and the server its
client had read, the server it was carried out on, and what that destroyed. -/
structure Carried where
  asked : List String
  listed : Option Mailboxes
  checked : Server
  server : Server
  destroyed : List String

structure Exchange where
  server : Server
  doing : Asking
  listed : Option Mailboxes
  /-- The server when it last said where emails are. -/
  checked : Server
  sets : List Carried

inductive Event where
  | elsewhere (server : Server)
  /-- The server carries out the request and its answer arrives. -/
  | served (choice : Choice)
  /-- The answer never arrives; the server may have carried out the request. -/
  | lost (choice : Option Choice) (error : ProtoError)

namespace Exchange

/-- The request carried out on the server, whether or not its answer arrives. -/
def carry (exchange : Exchange) (choice : Choice) (request : Request) : Exchange :=
  let (_, after) := serve exchange.server choice request
  { exchange with
    server := after
    sets :=
      match request with
      | .set ids => exchange.sets ++ [⟨ids, exchange.listed, exchange.checked, exchange.server,
          (exchange.server.destroy choice.refuses ids).2.destroyed⟩]
      | _ => exchange.sets }

/-- What the client takes from an answer. -/
def hear (exchange : Exchange) (request : Request) (answer : Answer) (server : Server) : Exchange :=
  { exchange with
    listed :=
      match answer with
      | .mailboxes list => some list
      | _ => exchange.listed
    checked := if request.reads then server else exchange.checked }

def step (exchange : Exchange) : Event → Option Exchange
  | .elsewhere server => some { exchange with server }
  | .served choice =>
    match exchange.doing with
    | .done _ => none
    | .ask request next =>
      let (answer, _) := serve exchange.server choice request
      some { (exchange.carry choice request).hear request answer exchange.server with
        doing := next answer }
  | .lost choice error =>
    match exchange.doing with
    | .done _ => none
    | .ask request next =>
      some { choice.elim exchange (fun choice => exchange.carry choice request) with
        doing := next (.failed error) }

def «over» (exchange : Exchange) : List Event → Option Exchange
  | [] => some exchange
  | event :: rest => (exchange.step event).bind fun next => next.over rest

end Exchange

def begin (client : Client) (server : Server) (asking : Asking) : Exchange :=
  ⟨server, asking, client.mailboxes, server, []⟩

/-! ## Rubbish -/

/-- What an operation may destroy: an email in Trash alone for an expunge, in Trash and Junk alone
for a deletion, and for a draft's copies one that is marked as a draft and is in Drafts alone. -/
def Rubbish (mailboxes : Mailboxes) (op : ProtoOp) (email : Email) : Prop :=
  email.mailboxIds ≠ [] ∧
    match op with
    | .expunge _ => ∀ held ∈ email.mailboxIds, mailboxes.idForRole .trash = some held
    | .destroy _ => ∀ held ∈ email.mailboxIds,
        mailboxes.idForRole .trash = some held ∨ mailboxes.idForRole .spam = some held
    | .keepDraft _ _ _ | .dropDraft _ _ _ =>
      (email.keywords.any fun held => Text.eqIgnoreAsciiCase held.toList "$draft".toList) = true ∧
        ∀ held ∈ email.mailboxIds, mailboxes.idForRole .drafts = some held
    | _ => False

/-- What was read allows an `Email/set`: each email it names was rubbish, and a deletion names
every email listed that was held. -/
def Allowed (op : ProtoOp) (listed : Option Mailboxes) (checked : Server) (ids : List String) :
    Prop :=
  ∃ mailboxes, listed = some mailboxes ∧
    (∀ id ∈ ids, ∃ email, checked.emails.get id = some email ∧ Rubbish mailboxes op email) ∧
    ∀ remotes, op = .destroy remotes → ∀ id ∈ emailIds remotes,
      checked.emails.contains id = true → id ∈ ids

/-- Whatever is asked from here on is allowed by what was read before it. -/
def Vouched (op : ProtoOp) : Option Mailboxes → Server → Asking → Prop
  | _, _, .done _ => True
  | listed, checked, .ask request next =>
    (∀ ids, request = .set ids → Allowed op listed checked ids) ∧
    (∀ error, Vouched op listed checked (next (.failed error))) ∧
    ∀ server choice,
      let answer := (serve server choice request).1
      Vouched op
        (match answer with
          | .mailboxes list => some list
          | _ => listed)
        (if request.reads then server else checked) (next answer)

section Vouched

variable {op : ProtoOp} {listed : Option Mailboxes} {checked : Server}

theorem vouched_nothing : Vouched op listed checked (.set []) := trivial

theorem vouched_set {ids : List String} (h : Allowed op listed checked ids) :
    Vouched op listed checked (.set ids) := by
  unfold Asking.set
  split
  · exact trivial
  · refine ⟨?_, fun _ => trivial, fun _ _ => trivial⟩
    rintro _ ⟨⟩
    exact h

theorem onlyIn_iff {mailboxes : List String} {email : EmailSummary} :
    Asking.onlyIn mailboxes email = true ↔
      email.mailboxIds ≠ [] ∧ ∀ held ∈ email.mailboxIds, held ∈ mailboxes := by
  simp [Asking.onlyIn]

variable {mailboxes : Mailboxes}

variable {remotes : List RemoteRef} {asking : Asking} {client : Client}

theorem vouched_inTrashOnly :
    Vouched (.expunge remotes) (some mailboxes) checked (.inTrashOnly mailboxes remotes) := by
  unfold Asking.inTrashOnly
  cases htrash : mailboxes.idForRole .trash with
  | none => exact vouched_nothing
  | some trash =>
    dsimp only
    split
    · exact vouched_nothing
    · refine ⟨fun _ h => (by cases h), fun _ => trivial, fun server choice => ?_⟩
      refine vouched_set ⟨mailboxes, rfl, fun id hid => ?_, fun _ h => by cases h⟩
      obtain ⟨found, hfound, rfl⟩ := List.mem_map.mp hid
      obtain ⟨hget, honly⟩ := List.mem_filter.mp hfound
      obtain ⟨-, email, hemail, hsummary⟩ := Server.mem_get.mp hget
      rw [← hsummary, onlyIn_iff] at honly
      refine ⟨email, hemail, honly.1, fun held hheld => ?_⟩
      rw [htrash, List.mem_singleton.mp (honly.2 held hheld)]

theorem vouched_destroyable :
    Vouched (.destroy remotes) (some mailboxes) checked (.destroyable mailboxes remotes) := by
  unfold Asking.destroyable
  dsimp only
  split
  · exact vouched_nothing
  · refine ⟨fun _ h => (by cases h), fun _ => trivial, fun server choice => ?_⟩
    simp only [serve, Asking.found, Request.reads, if_true]
    cases hkept : (server.get (emailIds remotes)).find? fun email => !Asking.onlyIn
        ([MailboxRole.trash, .spam].filterMap mailboxes.idForRole) email with
    | some kept => exact trivial
    | none =>
      refine vouched_set ⟨mailboxes, rfl, fun id hid => ?_, fun other hother id hid hheld => ?_⟩
      · obtain ⟨found, hfound, rfl⟩ := List.mem_map.mp hid
        have honly : Asking.onlyIn ([MailboxRole.trash, .spam].filterMap mailboxes.idForRole)
            found = true := by
          simpa using List.find?_eq_none.mp hkept found hfound
        obtain ⟨-, email, hemail, hsummary⟩ := Server.mem_get.mp hfound
        rw [← hsummary, onlyIn_iff] at honly
        refine ⟨email, hemail, honly.1, fun held hheld => ?_⟩
        have hbin := honly.2 held hheld
        simpa [List.mem_filterMap] using hbin
      · cases hother
        obtain ⟨email, hemail⟩ := Table.contains_iff.mp hheld
        exact List.mem_map.mpr ⟨Server.summary id email,
          Server.mem_get.mpr ⟨hid, email, hemail, rfl⟩, rfl⟩

theorem vouched_draftCopy {mailbox : MailboxRef} {messageId : String} {raw : Option Bytes}
    (hop : (∃ draft, op = .keepDraft draft mailbox messageId) ∨
      ∃ draft, op = .dropDraft draft mailbox messageId) :
    Vouched op (some mailboxes) checked (.draftCopy mailboxes mailbox messageId raw) := by
  unfold Asking.draftCopy
  cases hpath : mailboxes.idForPath mailbox.path with
  | none => exact trivial
  | some drafts =>
    dsimp only
    split
    · exact trivial
    · rename_i hdrafts
      rw [ne_eq, not_not] at hdrafts
      refine ⟨fun _ h => (by cases h), fun _ => trivial, fun server choice => ?_⟩
      simp only [serve, Asking.found, Request.reads, if_true]
      have hallowed : Allowed op (some mailboxes) server
          ((((server.query drafts ("<" ++ messageId ++ ">")).filter fun email =>
            email.hasKeyword "$draft").filter (Asking.onlyIn [drafts])).map EmailSummary.id) := by
        refine ⟨mailboxes, rfl, fun id hid => ?_, fun remotes h => ?_⟩
        · obtain ⟨found, hfound, rfl⟩ := List.mem_map.mp hid
          obtain ⟨hfound, honly⟩ := List.mem_filter.mp hfound
          obtain ⟨hquery, hdraft⟩ := List.mem_filter.mp hfound
          obtain ⟨email, hemail, hsummary⟩ := Server.mem_query hquery
          rw [← hsummary] at hdraft
          rw [← hsummary, onlyIn_iff] at honly
          refine ⟨email, hemail, honly.1, ?_⟩
          have hin : ∀ held ∈ email.mailboxIds, mailboxes.idForRole .drafts = some held := by
            intro held hheld
            rw [hdrafts, List.mem_singleton.mp (honly.2 held hheld)]
          rcases hop with ⟨draft, rfl⟩ | ⟨draft, rfl⟩
          · exact ⟨hdraft, hin⟩
          · exact ⟨hdraft, hin⟩
        · rcases hop with ⟨draft, rfl⟩ | ⟨draft, rfl⟩ <;> cases h
      cases raw with
      | none => exact vouched_set hallowed
      | some bytes =>
        refine ⟨fun _ h => (by cases h), fun _ => trivial, fun _ _ => ?_⟩
        refine ⟨fun _ h => (by cases h), fun _ => trivial, fun other picked => ?_⟩
        simp only [serve, Request.reads, Bool.false_eq_true, if_false]
        split
        · exact trivial
        · exact vouched_set hallowed

theorem vouched_removing (h : removing client op mailboxes = some asking) :
    Vouched op (some mailboxes) checked asking := by
  cases op with
  | expunge remotes =>
    cases h
    exact vouched_inTrashOnly
  | destroy remotes =>
    cases h
    exact vouched_destroyable
  | keepDraft draft mailbox messageId =>
    simp only [removing, Option.some.injEq] at h
    split at h
    · cases h
      exact trivial
    · cases h
      exact trivial
    · cases h
      exact vouched_draftCopy (.inl ⟨draft, rfl⟩)
  | dropDraft draft mailbox messageId =>
    cases h
    exact vouched_draftCopy (.inr ⟨draft, rfl⟩)
  | _ => cases h

theorem vouched_run (h : run client op = some asking) :
    Vouched op client.mailboxes checked asking := by
  unfold run at h
  cases hlist : client.mailboxes with
  | some mailboxes =>
    rw [hlist] at h
    exact vouched_removing h
  | none =>
    rw [hlist] at h
    obtain ⟨-, -, rfl⟩ := Option.map_eq_some_iff.mp h
    refine ⟨fun _ h => (by cases h), fun _ => trivial, fun server choice => ?_⟩
    simp only [serve, Request.reads, Bool.false_eq_true, if_false]
    cases hremoving : removing client op server.mailboxes with
    | none => exact trivial
    | some asking => exact vouched_removing hremoving

end Vouched

/-! ## Every exchange -/

/-- What is still asked is vouched for, and every `Email/set` carried out was allowed and destroyed
nothing it did not name. -/
structure Sound (op : ProtoOp) (exchange : Exchange) : Prop where
  doing : Vouched op exchange.listed exchange.checked exchange.doing
  sets : ∀ carried ∈ exchange.sets, (∀ id ∈ carried.destroyed, id ∈ carried.asked) ∧
    Allowed op carried.listed carried.checked carried.asked

section Sound

variable {op : ProtoOp} {exchange next : Exchange}

theorem sets_carry {choice : Choice} {request : Request} {rest : Answer → Asking}
    (h : Sound op exchange) (hdoing : exchange.doing = .ask request rest) :
    ∀ carried ∈ (exchange.carry choice request).sets,
      (∀ id ∈ carried.destroyed, id ∈ carried.asked) ∧
        Allowed op carried.listed carried.checked carried.asked := by
  intro carried hcarried
  have hvouched := h.doing
  rw [hdoing] at hvouched
  cases request with
  | set ids =>
    rcases List.mem_append.mp hcarried with hbefore | hnew
    · exact h.sets carried hbefore
    · rw [List.mem_singleton.mp hnew]
      exact ⟨fun id hid => (Server.mem_destroyed hid).1, hvouched.1 ids rfl⟩
  | _ => exact h.sets carried hcarried

theorem sound_step {event : Event} (h : Sound op exchange)
    (hstep : exchange.step event = some next) : Sound op next := by
  cases event with
  | elsewhere server =>
    cases hstep
    exact ⟨h.doing, h.sets⟩
  | served choice =>
    simp only [Exchange.step] at hstep
    cases hdoing : exchange.doing with
    | done outcome =>
      rw [hdoing] at hstep
      cases hstep
    | ask request rest =>
      rw [hdoing] at hstep
      cases hstep
      have hvouched := h.doing
      rw [hdoing] at hvouched
      exact ⟨hvouched.2.2 exchange.server choice, sets_carry h hdoing⟩
  | lost choice error =>
    simp only [Exchange.step] at hstep
    cases hdoing : exchange.doing with
    | done outcome =>
      rw [hdoing] at hstep
      cases hstep
    | ask request rest =>
      rw [hdoing] at hstep
      cases hstep
      have hvouched := h.doing
      rw [hdoing] at hvouched
      cases choice with
      | none => exact ⟨hvouched.2.1 error, h.sets⟩
      | some choice => exact ⟨hvouched.2.1 error, sets_carry h hdoing⟩

theorem sound_over {events : List Event} (h : Sound op exchange)
    (hrun : exchange.over events = some next) : Sound op next := by
  induction events generalizing exchange with
  | nil =>
    cases hrun
    exact h
  | cons event rest ih =>
    rw [Exchange.over] at hrun
    obtain ⟨middle, hstep, hrest⟩ := Option.bind_eq_some_iff.mp hrun
    exact ih (sound_step h hstep) hrest

end Sound

section Example

def binned : Mailboxes :=
  ⟨[⟨"i", "Inbox", none, some .inbox, 0⟩, ⟨"t", "Trash", none, some .trash, 1⟩]⟩

def bin : Client := ⟨some binned, fun _ => .ok none⟩

/-- A server with one email in its trash. -/
def trashed : Server := ⟨binned, Table.empty.set "e1" ⟨["t"], [], ""⟩⟩

/-- The email taken out of the trash by another client. -/
def rescued : Server := ⟨binned, Table.empty.set "e1" ⟨["i"], [], ""⟩⟩

def willing : Choice := ⟨"e2", fun _ => none⟩

def deleting : Asking := (run bin (.destroy [.jmap "e1"])).getD (.done (.ok ()))

end Example

end Mailo.Runtime.Jmap
