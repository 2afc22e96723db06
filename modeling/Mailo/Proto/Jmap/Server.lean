import Mailo.Library.Table
import Mailo.Proto.Search.Jmap
import Mailo.Domain.Keyword

/-!
# A JMAP server's emails

What a server holds, and what it does when it carries out the methods this client calls on emails.
A record in a `/set` the server does not change is named with its reason.
-/

namespace Mailo.Proto.Jmap

open Domain Library
open Proto.Search (Mailboxes)

/-- Why one record in a `/set` was not changed. -/
structure SetError where
  kind : String
  description : Option String
deriving DecidableEq

namespace SetError

/-- What a refusal of this kind means for a retry. -/
def proto (error : SetError) (what : String) : ProtoError :=
  let text :=
    match error.description with
    | some said => what ++ ": " ++ error.kind ++ ": " ++ said
    | none => what ++ ": " ++ error.kind
  if error.kind = "rateLimit" then .throttled text (some (60 * 15))
  else if error.kind = "serverFail" ∨ error.kind = "serverUnavailable" then .refused .transient text
  else .refused .permanent text

def notFound (error : SetError) : Bool := error.kind = "notFound"

def gone : SetError := ⟨"notFound", none⟩

end SetError

structure SetResult where
  created : List String
  destroyed : List String
  refused : List (String × SetError)
deriving DecidableEq

def SetResult.firstRefusal (result : SetResult) (what : String) : Option ProtoError :=
  (result.refused.find? fun refusal => !refusal.2.notFound).map fun refusal => refusal.2.proto what

/-! ## Emails -/

structure Email where
  mailboxIds : List String
  keywords : List String
  messageId : String
deriving DecidableEq

/-- What `Email/get` says of one email. -/
structure EmailSummary where
  id : String
  mailboxIds : List String
  keywords : List String
deriving DecidableEq

def EmailSummary.hasKeyword (email : EmailSummary) (keyword : String) : Bool :=
  email.keywords.any fun held => Text.eqIgnoreAsciiCase held.toList keyword.toList

structure Server where
  mailboxes : Mailboxes
  emails : Table String Email

namespace Server

def summary (id : String) (email : Email) : EmailSummary := ⟨id, email.mailboxIds, email.keywords⟩

def get (server : Server) (ids : List String) : List EmailSummary :=
  ids.filterMap fun id => (server.emails.get id).map (summary id)

/-- The emails in a mailbox whose `Message-ID` field holds a text. -/
def query (server : Server) (mailbox messageId : String) : List EmailSummary :=
  server.emails.rows.filterMap fun (id, email) =>
    if email.mailboxIds.contains mailbox && containsText messageId.toList email.messageId.toList then
      some (summary id email)
    else none

/-- Some emails are destroyed; a server may refuse any of them. -/
def destroy (server : Server) (refuses : String → Option SetError) (ids : List String) :
    Server × SetResult :=
  let taken := ids.filter fun id => server.emails.contains id && (refuses id).isNone
  ({ server with emails := server.emails.filter fun id _ => !taken.contains id },
    { created := []
      destroyed := taken
      refused := ids.filterMap fun id =>
        if server.emails.contains id then (refuses id).map fun error => (id, error)
        else some (id, .gone) })

def «import» (server : Server) (refuses : String → Option SetError) (id mailbox : String)
    (keywords : List String) (messageId : String) : Server × SetResult :=
  match refuses "import" with
  | some error => (server, ⟨[], [], [("import", error)]⟩)
  | none =>
    if server.emails.contains id then (server, ⟨[], [], [("import", ⟨"serverFail", none⟩)]⟩)
    else
      ({ server with emails := server.emails.set id ⟨[mailbox], keywords, messageId⟩ },
        ⟨[id], [], []⟩)

variable {found : EmailSummary} {ids : List String} {server : Server}

theorem mem_get :
    found ∈ server.get ids ↔
      found.id ∈ ids ∧ ∃ email, server.emails.get found.id = some email ∧
        summary found.id email = found := by
  unfold get
  rw [List.mem_filterMap]
  constructor
  · rintro ⟨id, hid, hfound⟩
    obtain ⟨email, hemail, rfl⟩ := Option.map_eq_some_iff.mp hfound
    exact ⟨hid, email, hemail, rfl⟩
  · rintro ⟨hid, email, hemail, heq⟩
    exact ⟨found.id, hid, by rw [hemail, Option.map_some, heq]⟩

theorem mem_query {mailbox messageId : String} (h : found ∈ server.query mailbox messageId) :
    ∃ email, server.emails.get found.id = some email ∧ summary found.id email = found := by
  obtain ⟨⟨id, email⟩, hrow, hfound⟩ := List.mem_filterMap.mp h
  dsimp only at hfound
  split at hfound
  · cases hfound
    exact ⟨email, Table.mem_rows.mp hrow, rfl⟩
  · cases hfound

theorem mem_destroyed {refuses : String → Option SetError} {id : String}
    (h : id ∈ (server.destroy refuses ids).2.destroyed) :
    id ∈ ids ∧ server.emails.contains id = true := by
  obtain ⟨hid, htaken⟩ := List.mem_filter.mp h
  rw [Bool.and_eq_true] at htaken
  exact ⟨hid, htaken.1⟩

end Server

end Mailo.Proto.Jmap

/-!
## Where an email is filed

An email is in one or more mailboxes and a message here has one role, so the mailboxes decide it in
a fixed order. An email none of whose mailboxes files is not followed.
-/

namespace Mailo.Proto.Search.Mailboxes

open Domain

def unfollowed (mailboxes : Mailboxes) : List String :=
  (mailboxes.list.filter fun mailbox => mailbox.role == some .drafts).map JmapMailbox.id

/-- The names an email carries as labels: every mailbox it is in that has no role. -/
def labels (mailboxes : Mailboxes) (ids : List String) : List String :=
  ((((ids.filterMap mailboxes.byId).filter fun mailbox => mailbox.role.isNone).filterMap
    fun mailbox => mailboxes.path mailbox.id)).insertionSort (· ≤ ·)

def filingRoles (mailboxes : Mailboxes) (ids : List String) : List MailboxRole :=
  (ids.filterMap mailboxes.byId).filterMap fun mailbox => mailbox.role.bind JmapRole.filedAs

def anyLabel (mailboxes : Mailboxes) (ids : List String) : Bool :=
  (ids.filterMap mailboxes.byId).any fun mailbox => mailbox.role.isNone

end Mailo.Proto.Search.Mailboxes

namespace Mailo.Proto.Jmap

open Domain
open Proto.Search (Mailboxes JmapMailbox JmapRole)

namespace EmailSummary

def read (email : EmailSummary) : ReadState :=
  if email.hasKeyword "$seen" then .read else .unread

def star (email : EmailSummary) : Star :=
  if email.hasKeyword "$flagged" then .starred else .unstarred

def hue (email : EmailSummary) : Hue := Hue.fromKeywords email.keywords

end EmailSummary

inductive Filing where
  | filed (role : MailboxRole) (labels : List String)
  | unfollowed
deriving DecidableEq

def filingOrder : List MailboxRole := [.trash, .spam, .inbox, .archive, .sent]

/-- File an email against the account's mailboxes. -/
def filing (ids : List String) (mailboxes : Mailboxes) : Filing :=
  let roles := mailboxes.filingRoles ids
  match (filingOrder.find? roles.contains).or
      (if mailboxes.anyLabel ids then some .archive else none) with
  | some role => .filed role (mailboxes.labels ids)
  | none => .unfollowed

/-- A mailbox that files what is in it: one without a role, or with one of the five. -/
def files (mailbox : JmapMailbox) : Bool :=
  match mailbox.role with
  | none => true
  | some role => role.filedAs.any filingOrder.contains

def filesAny (mailboxes : Mailboxes) (ids : List String) : Bool :=
  (ids.filterMap mailboxes.byId).any files

theorem find_filing_role (mailboxes : Mailboxes) (ids : List String) :
    filingOrder.find? (mailboxes.filingRoles ids).contains = none ↔
      ∀ mailbox ∈ ids.filterMap mailboxes.byId, ∀ role, mailbox.role.bind JmapRole.filedAs =
        some role → role ∉ filingOrder := by
  rw [List.find?_eq_none]
  constructor
  · intro h mailbox hmailbox role hrole hmem
    refine h role hmem ?_
    rw [List.contains_iff_mem]
    exact List.mem_filterMap.mpr ⟨mailbox, hmailbox, hrole⟩
  · intro h role hmem hcontains
    rw [List.contains_iff_mem] at hcontains
    obtain ⟨mailbox, hmailbox, hrole⟩ := List.mem_filterMap.mp hcontains
    exact h mailbox hmailbox role hrole hmem

/-- An email is followed exactly where one of its mailboxes files it. -/
theorem filing_unfollowed (ids : List String) (mailboxes : Mailboxes) :
    filing ids mailboxes = .unfollowed ↔ filesAny mailboxes ids = false := by
  have hcases : filing ids mailboxes = .unfollowed ↔
      filingOrder.find? (mailboxes.filingRoles ids).contains = none ∧
        mailboxes.anyLabel ids = false := by
    unfold filing
    cases hfind : filingOrder.find? (mailboxes.filingRoles ids).contains with
    | some role => simp only [hfind, Option.some_or, reduceCtorEq, false_and]
    | none =>
      simp only [hfind, Option.none_or, true_and]
      cases hlabel : mailboxes.anyLabel ids <;> simp
  rw [hcases, find_filing_role, filesAny, Mailboxes.anyLabel, List.any_eq_false, List.any_eq_false]
  constructor
  · rintro ⟨hroles, hlabels⟩ mailbox hmailbox hfiles
    cases hrole : mailbox.role with
    | none => exact hlabels mailbox hmailbox (by rw [hrole]; rfl)
    | some role =>
      simp only [files, hrole] at hfiles
      obtain ⟨filed, hfiled, hmem⟩ := (Option.any_eq_true _ _).mp hfiles
      exact hroles mailbox hmailbox filed (by rw [hrole]; exact hfiled)
        (List.contains_iff_mem.mp hmem)
  · intro h
    constructor
    · intro mailbox hmailbox role hrole hmem
      refine h mailbox hmailbox ?_
      cases hsome : mailbox.role with
      | none => rw [files, hsome]
      | some other =>
        rw [hsome] at hrole
        rw [files, hsome]
        change other.filedAs = some role at hrole
        simp [hrole, hmem]
    · intro mailbox hmailbox hnone
      refine h mailbox hmailbox ?_
      rw [files, Option.isNone_iff_eq_none.mp hnone]

/-- The mailbox an email is filed by is not one for drafts. -/
theorem files_followed {mailboxes : Mailboxes}
    (named : (mailboxes.list.map JmapMailbox.id).Nodup) {ids : List String}
    (h : filesAny mailboxes ids = true) : ∃ id ∈ ids, id ∉ mailboxes.unfollowed := by
  obtain ⟨mailbox, hmailbox, hfiles⟩ := List.any_eq_true.mp h
  obtain ⟨id, hid, hfind⟩ := List.mem_filterMap.mp hmailbox
  refine ⟨id, hid, fun hdrafts => ?_⟩
  obtain ⟨other, hother, hname⟩ := List.mem_map.mp hdrafts
  obtain ⟨hmem, hrole⟩ := List.mem_filter.mp hother
  have hfound : mailboxes.list.find? (fun mailbox => mailbox.id == id) = some mailbox := hfind
  have hsame : other = mailbox := by
    refine List.inj_on_of_nodup_map named hmem (List.mem_of_find?_eq_some hfound) ?_
    have hid := List.find?_some hfound
    rw [hname]
    exact (eq_of_beq hid).symm
  rw [hsame] at hrole
  rw [files, eq_of_beq hrole] at hfiles
  cases hfiles

end Mailo.Proto.Jmap
