import Mailo.Library.Runs
import Mailo.Runtime.Jmap.Sync

/-!
# What a pass writes

What is held after each request of a pass, address by address.
-/

namespace Mailo.Runtime.Jmap.Sync

open Domain Library Proto.Jmap
open Proto.Search (Mailboxes JmapMailbox)

theorem erase_all_get (gone : List String) (held : Table String Seen) (id : String) :
    (gone.foldl Table.erase held).get id = if id ∈ gone then none else held.get id := by
  induction gone generalizing held with
  | nil => rfl
  | cons head rest ih =>
    rw [List.foldl_cons, ih, Table.get_erase]
    by_cases hrest : id ∈ rest
    · simp [hrest]
    · by_cases hhead : id = head
      · simp [hhead]
      · simp [hrest, hhead]

theorem modify_all_get (seen : List (String × Seen)) (held : Table String Seen) (id : String) :
    (seen.foldl (fun held entry => held.modify entry.1 fun _ => entry.2) held).get id =
      (held.get id).map fun old => (Said.lastOf id seen).getD old := by
  induction seen using List.reverseRecOn with
  | nil => cases h : held.get id <;> simp [h, Said.lastOf]
  | append_singleton rest entry ih =>
    rw [List.foldl_append, List.foldl_cons, List.foldl_nil, Table.get_modify, ih,
      Said.lastOf_concat]
    by_cases heq : entry.1 = id
    · rw [if_pos heq.symm, if_pos heq]
      cases h : held.get id <;> rfl
    · rw [if_neg (Ne.symm heq), if_neg heq]

def readings (mailboxes : Mailboxes) (emails : List EmailSummary) : List (String × Seen) :=
  emails.filterMap fun email => (sees mailboxes email).map fun seen => (email.id, seen)

theorem saw_all (mailboxes : Mailboxes) (truth : Truth) (emails : List EmailSummary) :
    emails.foldl (Truth.saw mailboxes) truth =
      { seen := truth.seen ++ readings mailboxes emails
        gone := truth.gone ++ (emails.filter fun email =>
          (sees mailboxes email).isNone).map EmailSummary.id } := by
  induction emails generalizing truth with
  | nil => simp [readings]
  | cons email rest ih =>
    rw [List.foldl_cons, ih]
    unfold Truth.saw readings
    cases h : sees mailboxes email <;> simp [h]

section Answer

variable {server : Server} {mailboxes : Mailboxes} {id : String}

theorem reading_of (ids : List String) :
    Said.lastOf id (readings mailboxes (server.get ids)) =
      if id ∈ ids then (server.emails.get id).bind fun email =>
        sees mailboxes (Server.summary id email) else none := by
  induction ids using List.reverseRecOn with
  | nil => rfl
  | append_singleton rest other ih =>
    have hsplit : readings mailboxes (server.get (rest ++ [other])) =
        readings mailboxes (server.get rest) ++ (((server.emails.get other).bind fun email =>
          sees mailboxes (Server.summary other email)).map fun seen => (other, seen)).toList := by
      unfold Server.get readings
      rw [List.filterMap_append, List.filterMap_append]
      cases hemail : server.emails.get other with
      | none => simp [hemail]
      | some email =>
        cases hsees : sees mailboxes (Server.summary other email) with
        | none => simp [hemail, hsees]
        | some seen =>
          simp [hemail, hsees]
          rfl
    rw [hsplit]
    cases hread : (server.emails.get other).bind fun email =>
        sees mailboxes (Server.summary other email) with
    | none =>
      rw [Option.map_none, Option.toList_none, List.append_nil, ih]
      by_cases heq : id = other
      · simp [heq, hread]
      · simp [heq]
    | some seen =>
      rw [Option.map_some, Option.toList_some, Said.lastOf_concat, ih]
      by_cases heq : other = id
      · simp [← heq, hread]
      · simp [heq, Ne.symm heq]

theorem picked_of (p : EmailSummary → Bool) (ids : List String) :
    id ∈ ((server.get ids).filter p).map EmailSummary.id ↔
      id ∈ ids ∧ ∃ email, server.emails.get id = some email ∧
        p (Server.summary id email) = true := by
  rw [List.mem_map]
  constructor
  · rintro ⟨found, hfound, rfl⟩
    obtain ⟨hmem, hp⟩ := List.mem_filter.mp hfound
    obtain ⟨hid, email, hemail, heq⟩ := Server.mem_get.mp hmem
    exact ⟨hid, email, hemail, by rw [heq]; exact hp⟩
  · rintro ⟨hid, email, hemail, hp⟩
    exact ⟨_, List.mem_filter.mpr ⟨Server.mem_get.mpr ⟨hid, email, hemail, rfl⟩, hp⟩, rfl⟩

end Answer

section Changed

variable {world : World} {server : Server} {wanted : List String} {rounds : Nat}
  {changes : Changes} {id : String}

theorem changed_held (world : World) (server : Server) (wanted : List String) (rounds : Nat)
    (changes : Changes) (id : String) :
    (world.changed server wanted rounds changes).held.get id =
      if id ∈ changes.destroyed then none
      else if id ∈ changes.updated then
        match server.emails.get id with
        | none => world.held.get id
        | some email => (sees world.mailboxes (Server.summary id email)).bind fun seen =>
          (world.held.get id).map fun _ => seen
      else world.held.get id := by
  show (Truth.write _ world.held).get id = _
  rw [Truth.write, saw_all, erase_all_get, modify_all_get]
  rw [List.nil_append, List.nil_append, reading_of]
  have hgone := @picked_of server id (fun email => (sees world.mailboxes email).isNone)
    changes.updated
  by_cases hdestroyed : id ∈ changes.destroyed
  · simp [hdestroyed]
  by_cases hupdated : id ∈ changes.updated
  · cases hemail : server.emails.get id with
    | none => simp [hdestroyed, hupdated, hemail, hgone]
    | some email =>
      cases hsees : sees world.mailboxes (Server.summary id email) with
      | none | some => simp [hdestroyed, hupdated, hemail, hgone, hsees]
  · simp [hdestroyed, hupdated, hgone]

theorem changed_marked : id ∈ (world.changed server wanted rounds changes).marked ↔
    id ∈ world.marked ∨ id ∈ changes.destroyed ∨
      id ∈ changes.updated ∧ ∃ email, server.emails.get id = some email ∧
        sees world.mailboxes (Server.summary id email) = none := by
  show id ∈ world.marked ++ _ ↔ _
  rw [saw_all]
  dsimp only
  rw [List.nil_append, List.mem_append, List.mem_append, picked_of]
  simp only [Option.isNone_iff_eq_none]
  exact or_congr_right or_comm

def wantedOf (world : World) (server : Server) (wanted : List String) (changes : Changes) :
    List String :=
  wanted ++ ((server.get changes.updated).filter fun email =>
    (sees world.mailboxes email).isSome).map EmailSummary.id ++ changes.created

theorem mem_wantedOf : id ∈ wantedOf world server wanted changes ↔
    id ∈ wanted ∨ id ∈ changes.created ∨
      id ∈ changes.updated ∧ ∃ email, server.emails.get id = some email ∧
        (sees world.mailboxes (Server.summary id email)).isSome := by
  rw [wantedOf, List.mem_append, List.mem_append, picked_of, or_assoc]
  exact or_congr_right or_comm

theorem changed_phase (world : World) (server : Server) (wanted : List String) (rounds : Nat)
    (changes : Changes) :
    (world.changed server wanted rounds changes).phase =
      .changing changes.newState (wantedOf world server wanted changes) (rounds + 1) ∨
    (world.changed server wanted rounds changes).phase =
      .counting changes.newState (wantedOf world server wanted changes) := by
  show (if _ then _ else _) = _ ∨ (if _ then _ else _) = _
  split
  · exact .inl rfl
  · exact .inr rfl

end Changed

variable {id : String}

theorem mem_missing {held : Table String Seen} {wanted : List String} :
    id ∈ World.missing held wanted ↔ id ∈ wanted ∧ held.get id = none := by
  rw [World.missing, List.mem_eraseDups, List.mem_filter, Table.contains, Bool.not_eq_true',
    Option.isSome_eq_false_iff, Option.isNone_iff_eq_none]

theorem missing_nodup (held : Table String Seen) (wanted : List String) :
    (World.missing held wanted).Nodup := by
  unfold World.missing
  induction (wanted.filter fun id => !held.contains id) using List.reverseRecOn with
  | nil => exact List.nodup_nil
  | append_singleton rest id ih =>
    rw [List.eraseDups_append]
    by_cases hmem : id ∈ rest
    · simpa [List.removeAll, hmem] using ih
    · have hone : [id].removeAll rest = [id] := by simp [List.removeAll, hmem]
      rw [hone, List.eraseDups_cons, List.filter_nil, List.eraseDups_nil]
      refine List.nodup_append.mpr ⟨ih, List.nodup_singleton id, fun a ha b hb heq => ?_⟩
      rw [List.mem_singleton.mp hb] at heq
      rw [heq] at ha
      exact hmem (List.mem_eraseDups.mp ha)

theorem mem_query {server : Server} {unfollowed : List String} :
    id ∈ query server unfollowed ↔ ∃ email, server.emails.get id = some email ∧
      (unfollowed = [] ∨ ∃ mailbox ∈ email.mailboxIds, mailbox ∉ unfollowed) := by
  rw [query, List.mem_map]
  constructor
  · rintro ⟨⟨other, email⟩, hrow, rfl⟩
    obtain ⟨hmem, hkept⟩ := List.mem_filter.mp hrow
    refine ⟨email, Table.mem_rows.mp hmem, ?_⟩
    simpa [List.any_eq_true] using hkept
  · rintro ⟨email, hemail, hkept⟩
    refine ⟨(id, email), List.mem_filter.mpr ⟨Table.mem_rows.mpr hemail, ?_⟩, rfl⟩
    simpa [List.any_eq_true] using hkept

theorem query_nodup (server : Server) (unfollowed : List String) :
    (query server unfollowed).Nodup :=
  (List.filter_sublist.map Prod.fst).nodup server.emails.distinct

/-- The server lists the emails that are followed as the mailboxes are then. -/
theorem mem_query_followed {history : History} {v : Nat} :
    id ∈ query (history.snapshot v) (history.snapshot v).mailboxes.unfollowed ↔
      history.Followed v id := by
  rw [mem_query]
  constructor
  · rintro ⟨email, hemail, hnone | hsome⟩
    · obtain ⟨mailbox, hmailbox⟩ := List.exists_mem_of_ne_nil _ (history.somewhere v id email hemail)
      refine ⟨email, hemail, mailbox, hmailbox, ?_⟩
      rw [hnone]
      exact List.not_mem_nil
    · exact ⟨email, hemail, hsome⟩
  · rintro ⟨email, hemail, hsome⟩
    exact ⟨email, hemail, .inr hsome⟩

theorem settled_held (held : Table String Seen) (listed : List String) (id : String) :
    ((⟨[], held.keys.filter fun id => !listed.contains id⟩ : Truth).write held).get id =
      if id ∈ listed then held.get id else none := by
  rw [Truth.write, erase_all_get]
  by_cases hlisted : id ∈ listed
  · simp [hlisted]
  · cases hget : held.get id with
    | none => simp [hget]
    | some seen =>
      have hkey : id ∈ held.keys := Table.mem_keys.mpr ⟨seen, hget⟩
      simp [hlisted, hkey]

theorem set_all_get (mailboxes : Mailboxes) (server : Server) (ids : List String)
    (p : EmailSummary → Bool) (held : Table String Seen) (id : String) :
    (((server.get ids).filter p).foldl (World.keep mailboxes) held).get id =
      if id ∈ ids then
        (((server.emails.get id).map (Server.summary id)).bind fun email =>
          if p email then sees mailboxes email else none).or (held.get id)
      else held.get id := by
  induction ids using List.reverseRecOn with
  | nil => rfl
  | append_singleton rest other ih =>
    have hsplit : server.get (rest ++ [other]) = server.get rest ++
        ((server.emails.get other).map (Server.summary other)).toList := by
      unfold Server.get
      rw [List.filterMap_append]
      cases h : server.emails.get other <;> simp [h]
    rw [hsplit, List.filter_append, List.foldl_append]
    cases hemail : (server.emails.get other).map (Server.summary other) with
    | none =>
      rw [Option.toList_none, List.filter_nil, List.foldl_nil, ih]
      by_cases heq : id = other
      · subst heq
        simp [hemail]
      · simp [heq]
    | some email =>
      have hid : email.id = other := by
        obtain ⟨held, _, rfl⟩ := Option.map_eq_some_iff.mp hemail
        rfl
      rw [Option.toList_some]
      cases hp : p email with
      | false =>
        rw [List.filter_cons_of_neg (by simp [hp]), List.filter_nil, List.foldl_nil, ih]
        by_cases heq : id = other
        · subst heq
          simp [hemail, hp]
        · simp [heq]
      | true =>
        rw [List.filter_cons_of_pos hp, List.filter_nil, List.foldl_cons, List.foldl_nil]
        cases hsees : sees mailboxes email with
        | none =>
          rw [World.keep, hsees]
          rw [ih]
          by_cases heq : id = other
          · subst heq
            simp [hemail, hp, hsees]
          · simp [heq]
        | some seen =>
          rw [World.keep, hsees]
          rw [Table.get_set, hid, ih]
          by_cases heq : id = other
          · subst heq
            simp [hemail, hp, hsees]
          · simp [heq]

end Mailo.Runtime.Jmap.Sync

/-!
## What is held, against the server's history

An address held stands for its email at some moment from the stored state on; an email not held was
not to be, at such a moment. The requests of a pass keep both, as the state they reach moves on.
-/

namespace Mailo.Runtime.Jmap.Sync

open Domain Library Proto.Jmap
open Proto.Search (Mailboxes JmapMailbox)

variable {history : History} {whole : Prop}

namespace History

variable (history)

def Destroyed (v : Nat) (id : String) : Prop :=
  history.email v id = none ∧ ∃ u ≤ v, (history.email u id).isSome

/-- What is written of an email is what it was at some moment since, as the mailboxes were told at
some moment; or it has been destroyed since. -/
def Fresh (since now : Nat) (id : String) (seen : Seen) : Prop :=
  ∃ v, since ≤ v ∧ v ≤ now ∧ (history.Destroyed v id ∨ ∃ email, history.email v id = some email ∧
    ∃ u ≤ now, sees (history.snapshot u).mailboxes (Server.summary id email) = some seen)

/-- At some moment since, an email was not there or in no mailbox but those for drafts, as the
mailboxes were told at some moment. -/
def Missed (since now : Nat) (id : String) : Prop :=
  ∃ v, since ≤ v ∧ v ≤ now ∧ ∀ email, history.email v id = some email →
    ∃ u ≤ now, ∀ mailbox ∈ email.mailboxIds, mailbox ∈ (history.snapshot u).mailboxes.unfollowed

variable {history}

variable {v now' since' : Nat} {seen : Seen}

theorem Destroyed.later {w : Nat} {id : String} (h : history.Destroyed v id) (le : v ≤ w) :
    history.Destroyed w id := by
  obtain ⟨hnone, u, hu, hsome⟩ := h
  exact ⟨history.retired id u v w hu le hsome hnone, u, le_trans hu le, hsome⟩

theorem Fresh.mono {since now : Nat} {id : String} (h : history.Fresh since now id seen)
    (hsince : since' ≤ since) (hnow : now ≤ now') :
    history.Fresh since' now' id seen := by
  obtain ⟨v, hv, hle, hsaid⟩ := h
  refine ⟨v, le_trans hsince hv, le_trans hle hnow, hsaid.imp_right ?_⟩
  rintro ⟨email, hemail, u, hu, hsees⟩
  exact ⟨email, hemail, u, le_trans hu hnow, hsees⟩

theorem Missed.mono {since now : Nat} {id : String} (h : history.Missed since now id)
    (hsince : since' ≤ since) (hnow : now ≤ now') : history.Missed since' now' id := by
  obtain ⟨v, hv, hle, hnot⟩ := h
  refine ⟨v, le_trans hsince hv, le_trans hle hnow, fun email hemail => ?_⟩
  obtain ⟨u, hu, hdrafts⟩ := hnot email hemail
  exact ⟨u, le_trans hu hnow, hdrafts⟩

theorem missed_of_not_followed {since now : Nat} {id : String} (hv : since ≤ v) (le : v ≤ now)
    (h : ¬history.Followed v id) : history.Missed since now id := by
  refine ⟨v, hv, le, fun email hemail => ⟨v, le, fun mailbox hmailbox => ?_⟩⟩
  by_contra hnot
  exact h ⟨email, hemail, mailbox, hmailbox, hnot⟩

theorem not_followed_of_none {id : String} (h : history.email v id = none) :
    ¬history.Followed v id := by
  rintro ⟨email, hemail, _⟩
  rw [h] at hemail
  cases hemail

theorem fresh_of_destroyed {now : Nat} {id : String} (seen : Seen)
    (h : history.Destroyed now id) : history.Fresh now now id seen :=
  ⟨now, le_rfl, le_rfl, .inl h⟩

variable {since now : Nat} {changes : Changes} {id : String}

/-- An email named as updated was there at some moment. -/
theorem existed_of_updated (reports : history.Reports since now changes)
    (h : id ∈ changes.updated) : ∃ v ≤ now, (history.email v id).isSome := by
  obtain ⟨v, hv, hle, hne⟩ := reports.updated id h
  have hnow : v ≤ now := le_trans hle reports.le_now
  cases hemail : history.email v id with
  | some email => exact ⟨v, hnow, by rw [hemail]; rfl⟩
  | none =>
    refine ⟨since, le_trans hv hnow, ?_⟩
    rw [hemail] at hne
    exact Option.isSome_iff_ne_none.mpr hne.symm

/-- What is held of an email that is not named is as fresh as the new state. -/
theorem fresh_of_unnamed (reports : history.Reports since now changes)
    (hcreated : id ∉ changes.created) (hupdated : id ∉ changes.updated)
    (hdestroyed : id ∉ changes.destroyed) (h : history.Fresh since now id seen) :
    history.Fresh changes.newState now id seen := by
  obtain ⟨v, hv, hle, hsaid⟩ := h
  by_cases hlate : changes.newState ≤ v
  · exact ⟨v, hlate, hle, hsaid⟩
  have hearly : v ≤ changes.newState := by omega
  refine ⟨changes.newState, le_rfl, reports.le_now, ?_⟩
  obtain hgone | ⟨email, hemail, hsees⟩ := hsaid
  · exact .inl (hgone.later hearly)
  · obtain hsame | ⟨hbefore, hafter⟩ := reports.unnamed id hcreated hupdated hdestroyed
    · refine .inr ⟨email, ?_, hsees⟩
      rw [hsame _ reports.since_le le_rfl, ← hsame v hv hearly]
      exact hemail
    · exact .inl ⟨hafter, v, hearly, by rw [hemail]; rfl⟩

theorem missed_of_unnamed (reports : history.Reports since now changes)
    (hcreated : id ∉ changes.created) (hupdated : id ∉ changes.updated)
    (hdestroyed : id ∉ changes.destroyed) (h : history.Missed since now id) :
    history.Missed changes.newState now id := by
  obtain ⟨v, hv, hle, hnot⟩ := h
  by_cases hlate : changes.newState ≤ v
  · exact ⟨v, hlate, hle, hnot⟩
  have hearly : v ≤ changes.newState := by omega
  refine ⟨changes.newState, le_rfl, reports.le_now, fun email hemail => ?_⟩
  obtain hsame | ⟨_, hafter⟩ := reports.unnamed id hcreated hupdated hdestroyed
  · refine hnot email ?_
    rw [hsame v hv hearly, ← hsame _ reports.since_le le_rfl]
    exact hemail
  · rw [hafter] at hemail
    cases hemail

/-- An email named as destroyed is gone from then on. -/
theorem destroyed_now (reports : history.Reports since now changes)
    (h : id ∈ changes.destroyed) : history.Destroyed now id := by
  obtain ⟨hnone, v, _, hle, hsome⟩ := reports.destroyed id h
  exact Destroyed.later ⟨hnone, v, hle, hsome⟩ reports.le_now

/-- With no time between, there is nothing to name. -/
theorem nothing_named (reports : history.Reports now now changes) :
    changes.created = [] ∧ changes.updated = [] ∧ changes.destroyed = [] := by
  have hstate : changes.newState = now := le_antisymm reports.le_now reports.since_le
  have hat : ∀ v, now ≤ v → v ≤ changes.newState → v = now := fun v hv hle => by omega
  refine ⟨?_, ?_, ?_⟩
  · refine List.eq_nil_iff_forall_not_mem.mpr fun id hid => ?_
    obtain ⟨hnone, v, hv, hle, hsome⟩ := reports.created id hid
    rw [hat v hv hle, hnone] at hsome
    cases hsome
  · refine List.eq_nil_iff_forall_not_mem.mpr fun id hid => ?_
    obtain ⟨v, hv, hle, hne⟩ := reports.updated id hid
    rw [hat v hv hle] at hne
    exact hne rfl
  · refine List.eq_nil_iff_forall_not_mem.mpr fun id hid => ?_
    obtain ⟨hnone, v, hv, hle, hsome⟩ := reports.destroyed id hid
    rw [hat v hv hle] at hsome
    rw [hstate] at hnone
    rw [hnone] at hsome
    cases hsome

end History

/-- An email that is there files in a mailbox of those the pass was told, or is not followed. -/
def Plain (history : History) (world : World) (id : String) : Prop :=
  ∀ email, history.email world.now id = some email →
    filesAny world.mailboxes email.mailboxIds = true ∨ ¬history.Followed world.now id

/-- What the requests of a pass must find. -/
def Meets (history : History) (whole : Prop) (world : World) : Event → Prop
  | .changes changes => (∀ id ∈ changes.updated, Plain history world id) ∧
      -- A new email already held is held as it is by the new state.
      ∀ id ∈ changes.created, ∀ seen, world.held.get id = some seen →
        history.Fresh changes.newState world.now id seen
  | .count => ∀ state wanted, world.phase = .counting state wanted → world.began = world.now →
      (query (history.snapshot world.now) world.mailboxes.unfollowed).length =
        world.held.keys.length + (World.missing world.held wanted).length →
      ∀ id, (world.held.get id).isSome ∨ id ∈ wanted → history.Followed world.now id
  | .page size => ∀ state wanted listed position opened,
      world.phase = .listing state wanted listed position opened →
      world.lastPage (history.snapshot world.now) size position →
      (world.began ≠ world.now →
        ∀ id, (∀ v, world.openedAt position opened ≤ v → v ≤ world.now → history.Followed v id) →
          id ∈ listed ++ world.pageIds (history.snapshot world.now) size position) ∧
      (state = none →
        ∀ id ∈ listed ++ world.pageIds (history.snapshot world.now) size position, ∀ seen,
          world.held.get id = some seen →
            history.Fresh (world.openedAt position opened) world.now id seen)
  | .fetched chunk _ => ∀ id ∈ chunk, Plain history world id
  | .stored => whole → world.short = false
  | _ => True

/-- The worlds reached by steps that meet it. -/
inductive Run (history : History) (whole : Prop) : World → World → Prop where
  | nil (world : World) : Run history whole world world
  | step (before world after : World) (event : Event) (run : Run history whole before world)
      (step : Step history world event after) (meets : Meets history whole world event) :
      Run history whole before after

end Mailo.Runtime.Jmap.Sync
