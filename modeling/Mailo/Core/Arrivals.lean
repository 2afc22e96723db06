import Mailo.Core.OneCommit

/-!
# An arrival written

What is gathered for an arrival is what the store holds, so the fold starts in step with the store
read again, and the one commit it ends with is written.
-/

namespace Mailo.Core

open Domain Logic Store Library

/-! ## What is gathered -/

/-- What has been read of a store for the messages before. -/
structure Gathered (store : Sqlite) (account : AccountId) (messages : List MessageId)
    (input : ArrivalInput) : Prop where
  threads : ∀ view ∈ input.threads, threadView store view.thread.summary.id = some view
  distinct : (input.threads.map fun view => view.thread.summary.id).Nodup
  evidence : ∀ e ∈ input.evidence, store.placing e.message = some e.places
  covers : ∀ id ∈ messages, ∀ m, store.messages.get id = some m → m.account = account →
    ∃ e ∈ input.evidence, e.message = id

variable {account : AccountId} {input : ArrivalInput} {messages : List MessageId} {store : Sqlite}

theorem gathered_one (coherent : store.Coherent) (standing : Message → Standing)
    (h : Gathered store account messages input) (id : MessageId) :
    Gathered store account (messages ++ [id]) (gatherOne store account standing input id) := by
  cases hget : store.messages.get id with
  | none =>
    have hmessage : store.message id = none := by rw [Sqlite.message, hget, Option.map_none]
    have hsame : gatherOne store account standing input id = input := by
      unfold gatherOne
      rw [hmessage]
    rw [hsame]
    refine ⟨h.threads, h.distinct, h.evidence, fun other hother m hm haccount => ?_⟩
    rcases List.mem_append.mp hother with hbefore | hlast
    · exact h.covers other hbefore m hm haccount
    · rw [List.mem_singleton.mp hlast, hget] at hm
      cases hm
  | some m =>
    have hid := coherent.keyed id m hget
    have hmessage : store.message id = some (Sqlite.shown m) := by
      rw [Sqlite.message, hget, Option.map_some]
    obtain ⟨places, hplaces⟩ : ∃ places, store.placing id = some places := by
      rw [Sqlite.placing, hget]
      exact ⟨_, rfl⟩
    unfold gatherOne
    rw [hmessage, hplaces]
    dsimp only
    by_cases haccount : (Sqlite.shown m).account ≠ account
    · rw [if_pos haccount]
      refine ⟨h.threads, h.distinct, h.evidence, fun other hother found hfound hon => ?_⟩
      rcases List.mem_append.mp hother with hbefore | hlast
      · exact h.covers other hbefore found hfound hon
      · rw [List.mem_singleton.mp hlast, hget] at hfound
        cases hfound
        exact absurd hon haccount
    · rw [if_neg haccount]
      have hevidence : ∀ e ∈ input.evidence ++
          [⟨(Sqlite.shown m).id, standing (Sqlite.shown m), places⟩],
          store.placing e.message = some e.places := by
        intro e he
        rcases List.mem_append.mp he with hbefore | hlast
        · exact h.evidence e hbefore
        · rw [List.mem_singleton.mp hlast, Sqlite.shown_id, hid]
          exact hplaces
      have hcovers : ∀ other ∈ messages ++ [id], ∀ found, store.messages.get other = some found →
          found.account = account → ∃ e ∈ input.evidence ++
            [⟨(Sqlite.shown m).id, standing (Sqlite.shown m), places⟩], e.message = other := by
        intro other hother found hfound hon
        rcases List.mem_append.mp hother with hbefore | hlast
        · obtain ⟨e, he, heq⟩ := h.covers other hbefore found hfound hon
          exact ⟨e, List.mem_append_left _ he, heq⟩
        · exact ⟨_, List.mem_append_right _ (.head _),
            hid.trans (List.mem_singleton.mp hlast).symm⟩
      split
      · exact ⟨h.threads, h.distinct, hevidence, hcovers⟩
      · rename_i hnew
        obtain ⟨state, summary, -, hsummary, hthread, -⟩ := coherent.threaded id m hget
        have hview := threadView_eq coherent m.thread
        rw [hsummary, Option.map_some] at hview
        have hshown : threadView store (Sqlite.shown m).thread = _ := hview
        rw [hshown]
        refine ⟨?_, ?_, hevidence, hcovers⟩
        · intro view hmem
          rcases List.mem_append.mp hmem with hbefore | hlast
          · exact h.threads view hbefore
          · rw [List.mem_singleton.mp hlast, hthread]
            exact hview
        · dsimp only
          rw [List.map_append, List.nodup_append]
          refine ⟨h.distinct, List.nodup_singleton _, ?_⟩
          rintro a ha b hb rfl
          rw [List.map_singleton, List.mem_singleton, hthread] at hb
          refine hnew (List.any_eq_true.mpr ?_)
          obtain ⟨view, hmem, hviewId⟩ := List.mem_map.mp ha
          exact ⟨view, hmem, decide_eq_true (hviewId.trans hb)⟩

theorem gathered (coherent : store.Coherent) (account : AccountId) (standing : Message → Standing)
    (messages : List MessageId) :
    Gathered store account messages (arrivalInput store account standing messages) := by
  have hfold : ∀ (rest before : List MessageId) (input : ArrivalInput),
      Gathered store account before input →
      Gathered store account (before ++ rest)
        (rest.foldl (gatherOne store account standing) input) := by
    intro rest
    induction rest with
    | nil =>
      intro before input h
      rw [List.append_nil]
      exact h
    | cons id rest ih =>
      intro before input h
      have hnext := ih (before ++ [id]) _ (gathered_one coherent standing h id)
      rw [List.append_assoc] at hnext
      exact hnext
  exact hfold messages [] ⟨[], []⟩
    ⟨fun _ h => absurd h List.not_mem_nil, List.nodup_nil, fun _ h => absurd h List.not_mem_nil,
      fun _ h => absurd h List.not_mem_nil⟩

theorem Gathered.listed (h : Gathered store account messages input) {id : MessageId}
    (mem : id ∈ messages) {m : Message} (hm : store.messages.get id = some m)
    (haccount : m.account = account) :
    ((input.evidence.map fun e => (e.message, e.places)).find? fun row => row.1 = id).map Prod.snd =
      store.placing id := by
  obtain ⟨e, he, hid⟩ := h.covers id mem m hm haccount
  rw [List.find?_map]
  cases hfind : input.evidence.find? ((fun row : MessageId × Placing => decide (row.1 = id)) ∘
      fun e => (e.message, e.places)) with
  | none => exact absurd (decide_eq_true hid) (List.find?_eq_none.mp hfind e he)
  | some found =>
    have hfound : found.message = id := by simpa using List.find?_some hfind
    rw [Option.map_some, Option.map_some, ← hfound]
    exact (h.evidence found (List.mem_of_find?_eq_some hfind)).symm

section Start

variable {store : Sqlite} (coherent : store.Coherent) (given : Circumstances)
  (messages : List MessageId) (now : DateTime) {fresh : Fresh}
  (unused : ∀ n, store.labels.get (fresh.label n) = none)

include coherent unused

theorem follows_start :
    Follows store given.account now fresh
      ((snapshot store given messages).threads.map fun view => view.thread.summary.id) messages
      (Drafted.begin (snapshot store given messages)) store 0 := by
  have hgathered := gathered coherent given.account given.standing messages
  refine ⟨coherent, fun _ => rfl, ⟨[], rfl, fun _ h => absurd h List.not_mem_nil⟩,
    ⟨store, [], rfl, rfl⟩, fun _ h => absurd h List.not_mem_nil, fun k _ => unused k, ?_,
    List.Perm.refl _, fun _ => rfl, fun id mem m hm haccount => hgathered.listed mem hm haccount⟩
  change List.Forall₂ (Shows store) (arrivalInput store given.account given.standing messages).threads
    ((arrivalInput store given.account given.standing messages).threads.map _)
  rw [List.forall₂_map_right_iff, List.forall₂_same]
  intro view hview
  exact ⟨view, hgathered.threads view hview, rfl, rfl, List.forall₂_same.mpr fun m _ => .refl m⟩

end Start

section Written

variable [Unicode] {base store : Sqlite} {account : AccountId} {now : DateTime} {fresh : Fresh}
  {scope : List ThreadId} {arrived : List MessageId} {drafted : Drafted} {drawn : Nat}

/-- What is gathered, written as one commit, leaves what the commits of their own left. -/
theorem Follows.commit (h : Follows base account now fresh scope arrived drafted store drawn)
    (coherent : base.Coherent) (id : ChangeId) :
    ∃ written made,
      base.commitSteps ⟨account, now, ⟨id, drafted.forward⟩, drafted.queue, []⟩ =
        .ok (written, made) ∧
      written = { store with summaries := written.summaries } := by
  obtain ⟨touched, hforward, htouched⟩ := h.written
  obtain ⟨after, made, hqueue, hstore⟩ := h.queued
  have hframe := h.frame
  have hrefresh : ∃ summaries, (holding base store).refreshAll touched =
      .ok { holding base store with summaries := summaries } := by
    refine Sqlite.refreshAll_held fun thread hthread => ?_
    obtain ⟨id, m, hm, rfl⟩ := htouched thread hthread
    obtain ⟨state, -, hstate, -⟩ := coherent.threaded id m hm
    have hrest := h.rest id
    rw [hm] at hrest
    obtain ⟨now', hnow', heq⟩ := Option.map_eq_some_iff.mp hrest
    exact ⟨id, now', state, hnow', Message.eq_of_rest heq Message.thread fun _ => rfl, hstate⟩
  obtain ⟨summaries, hrefresh⟩ := hrefresh
  have hlater : ∀ work ∈ drafted.queue, work.resolve ≠ .beforeForward := fun work hwork => by
    rw [(h.work work hwork).1]
    exact fun h => Commit.Resolve.noConfusion h
  have hbefore := base.queueAll_skip account now hlater
  have hpatch : base.writePatch ⟨id, drafted.forward⟩ =
      .ok { holding base store with summaries := summaries } := by
    rw [Sqlite.writePatch, hforward]
    exact hrefresh
  have halike : Sqlite.QueuesAlike (holding base store)
      { holding base store with summaries := summaries } := ⟨fun _ => rfl, rfl, rfl, rfl, rfl, rfl⟩
  have hcongr := Sqlite.queueAll_congr drafted.queue halike
    (fun _ _ _ _ => rfl) account now .afterForward
  rw [hqueue] at hcongr
  refine ⟨Sqlite.withQueue { holding base store with summaries := summaries } after,
    (drafted.queue.map fun _ => none).zipWith Option.or made, ?_, ?_⟩
  · unfold Sqlite.commitSteps
    simp only [Sqlite.expectingAll, hbefore, hpatch, hcongr, Except.map, Sqlite.writeRows]
  · rw [hframe, hstore]
    rfl

end Written

/-! ## One commit for an arrival -/

section OneCommit

variable [Unicode] [FoldTable] [Judging]

/-- One commit for an arrival leaves the store, but for its summaries, as a commit for each
operation does when everything is read again between them; and the two tell the same. -/
theorem one_commit_for_each (store : Sqlite) (coherent : store.Coherent) (given : Circumstances)
    (asked : Asked) (messages : List MessageId) (now : DateTime) (fresh : Fresh)
    (distinct : ∀ n m, fresh.label n = fresh.label m → n = m)
    (unused : ∀ n, store.labels.get (fresh.label n) = none) :
    let read := snapshot store given messages
    let one := asked.inOne read messages now fresh
    let apart := asked.over read
      (eachInItsOwn given.account now (read.threads.map fun view => view.thread.summary.id)) now
      fresh (.begin (.ok store)) messages
    ∃ written made left, store.commitSteps one.commit = .ok (written, made) ∧
      apart.held = .ok left ∧ written = { left with summaries := written.summaries } ∧
      (one.rows, one.effects, one.acted, one.examined, one.muted, one.junk) =
        (apart.rows, apart.effects, apart.acted, apart.examined, apart.muted, apart.junk) := by
  have hstart : Along store given.account now fresh
      ((snapshot store given messages).threads.map fun view => view.thread.summary.id) messages
      (.begin (Drafted.begin (snapshot store given messages))) (.begin (.ok store)) :=
    ⟨store, follows_start coherent given messages now unused, rfl⟩
  have hscope := (gathered coherent given.account given.standing messages).distinct
  have hsame : (snapshot store given messages).account = given.account := rfl
  obtain ⟨left, hfollows, hon⟩ := over_along hscope hsame distinct asked hstart
  intro read one apart
  have hone : one = ArrivalFold.finish read now fresh
      (asked.over read (Drafted.ledger read) now fresh (.begin (Drafted.begin read)) messages) := by
    cases asked <;> rfl
  obtain ⟨written, made, hcommit, hwritten⟩ := hfollows.commit coherent (fresh.change
    (asked.over read (Drafted.ledger read) now fresh (.begin (Drafted.begin read))
      messages).changesDrawn)
  refine ⟨written, made, left, ?_, ?_, hwritten, ?_⟩
  · rw [hone]
    exact hcommit
  · exact congrArg ArrivalFold.held hon
  · have happart : apart = _ := hon
    rw [hone, happart]
    rfl

end OneCommit

section Example

local instance asciiArrival : Unicode := .ascii

local instance neverJunk : Judging := .never

local instance asciiFold : FoldTable := .ascii

def inboxOfOne : Sqlite :=
  let letter : Message := .plain ⟨1⟩ ⟨1⟩ .inbox
  { Sqlite.empty with
    messages := Table.empty.set ⟨1⟩ letter
    threads := Table.empty.set ⟨1⟩ ⟨.inactive, .unpinned, .unmuted, .inactive⟩
    summaries := Table.empty.set ⟨1⟩ (.deriveFrom ⟨1⟩ letter letter [letter] .inactive .unpinned
      .unmuted .inactive)
    remoteMap := Table.empty.set (⟨0⟩, .jmap "e1") ⟨1⟩ }

theorem inboxOfOne_coherent : inboxOfOne.Coherent where
  keyed id m h := by
    simp only [inboxOfOne, Table.get_set] at h
    split at h
    · rename_i heq
      cases h
      exact heq.symm
    · cases h
  labelled _ _ h := by cases h
  named _ _ h := absurd h List.not_mem_nil
  threaded id m h := by
    simp only [inboxOfOne, Table.get_set] at h
    split at h
    · cases h
      exact ⟨_, _, rfl, rfl, rfl, rfl⟩
    · cases h
  addressed account remote id m hremote hm := by
    simp only [inboxOfOne, Table.get_set] at hremote hm
    split at hremote
    · rename_i hkey
      split at hm
      · cases hm
        exact (congrArg Prod.fst hkey).symm
      · cases hm
    · cases hremote

def filedAndStarred : Circumstances where
  account := ⟨0⟩
  hasServer := true
  caps := ⟨.localOnly, .dropInbox, ⟨[]⟩⟩
  rules := [⟨⟨1⟩, ⟨0⟩, "File", 0, .enabled, .and [], [.file "Projects", .star], .continue, 0,
    4⟩]
  vips := []
  names := []
  policy := ⟨.off, .move, .yes, .yes, .yes, .no, .afterRules⟩
  standing _ := ⟨⟨false, false⟩, false, ⟨0, 0, []⟩⟩

def counted : Fresh := ⟨fun n => ⟨n⟩, fun n => ⟨n⟩⟩

theorem filed_and_starred_in_one :
    let read := snapshot inboxOfOne filedAndStarred [⟨1⟩]
    let one := Asked.arrived.inOne read [⟨1⟩] 0 counted
    let apart := Asked.arrived.over read
      (eachInItsOwn ⟨0⟩ 0 (read.threads.map fun view => view.thread.summary.id)) 0 counted
      (.begin (.ok inboxOfOne)) [⟨1⟩]
    one.commit.queue.length = 2 ∧
      ∃ written made left, inboxOfOne.commitSteps one.commit = .ok (written, made) ∧
        apart.held = .ok left ∧ written = { left with summaries := written.summaries } ∧
        (one.rows, one.effects, one.acted, one.examined, one.muted, one.junk) =
          (apart.rows, apart.effects, apart.acted, apart.examined, apart.muted, apart.junk) :=
  ⟨by decide +kernel,
    one_commit_for_each inboxOfOne inboxOfOne_coherent filedAndStarred .arrived [⟨1⟩] 0 counted
      (fun _ _ h => congrArg LabelId.raw h) (fun _ => rfl)⟩

end Example

end Mailo.Core
