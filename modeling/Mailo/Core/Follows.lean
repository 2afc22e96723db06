import Mailo.Core.Work

/-!
# One operation, written in both ledgers

The store after each operation in its own commit and the changes and work gathered for one commit:
written at once, what is gathered leaves the same store but for its summaries.
-/

namespace Mailo.Core

open Domain Logic Store Library ArrivalFold

variable [Unicode]

/-- The messages and labels of one store in another. -/
def holding (base store : Sqlite) : Sqlite :=
  { base with messages := store.messages, labels := store.labels }

/-- Where a message is listed, as gathered in memory. -/
def listed (drafted : Drafted) (id : MessageId) : Option Placing :=
  (drafted.places.find? fun row => row.1 = id).map Prod.snd

/-- What is gathered, and the store as each operation in its own commit leaves it. -/
structure Follows (base : Sqlite) (account : AccountId) (now : DateTime) (fresh : Fresh)
    (scope : List ThreadId) (arrived : List MessageId) (drafted : Drafted) (store : Sqlite)
    (drawn : Nat) : Prop where
  coherent : store.Coherent
  rest : ∀ id, (store.messages.get id).map Message.rest = (base.messages.get id).map Message.rest
  written : ∃ touched, base.writeChanges [] drafted.forward = .ok (holding base store, touched) ∧
    ∀ thread ∈ touched, ∃ id m, base.messages.get id = some m ∧ m.thread = thread
  queued : ∃ after made,
    (holding base store).queueAll account now .afterForward drafted.queue = .ok (after, made) ∧
      store = { after with summaries := store.summaries }
  work : ∀ work ∈ drafted.queue, work.resolve = .afterForward ∧
    ∀ label ∈ labelsIn work.intent, store.labels.contains label = true
  unused : ∀ k, drawn ≤ k → store.labels.get (fresh.label k) = none
  views : List.Forall₂ (Shows store) drafted.views scope
  labels : drafted.labels.Perm (store.labelsOf account)
  named : ∀ name, drafted.labels.filter (named name) = (store.labelsOf account).filter (named name)
  places : ∀ id ∈ arrived, ∀ m, base.messages.get id = some m → m.account = account →
    listed drafted id = store.placing id

namespace Follows

variable {base : Sqlite} {account : AccountId} {now : DateTime} {fresh : Fresh}
  {scope : List ThreadId} {arrived : List MessageId} {drafted : Drafted} {store : Sqlite}
  {drawn : Nat}

omit [Unicode] in
/-- Nothing but messages, labels, queue and summaries differs from the store at the start. -/
theorem frame (h : Follows base account now fresh scope arrived drafted store drawn) :
    store = { (holding base store).withQueue store with summaries := store.summaries } := by
  obtain ⟨after, made, hqueue, hstore⟩ := h.queued
  have hframe := Sqlite.queueAll_frame hqueue
  have hwith : (holding base store).withQueue store = after := by
    rw [hframe, hstore]
    rfl
  rw [hwith]
  exact hstore

omit [Unicode] in
theorem found (h : Follows base account now fresh scope arrived drafted store drawn)
    (name : String) : labelFound drafted.labels name = labelFound (store.labelsOf account) name :=
  labelFound_congr (h.named name)

/-! ## A label made -/

omit [Unicode] in
theorem not_named (h : Follows base account now fresh scope arrived drafted store drawn)
    {name : String} (none' : labelFound drafted.labels name = none) :
    ∀ label ∈ store.labels.values, label.account = account → label.name ≠ name := by
  intro label hlabel haccount hname
  have hnil := labelFound_eq_none ((h.found name).symm.trans none')
  rw [List.filter_eq_nil_iff] at hnil
  refine hnil label ?_ (hname ▸ named_self label)
  exact (List.mem_insertionSort _).mpr (List.mem_filter.mpr ⟨hlabel, decide_eq_true haccount⟩)

omit [Unicode] in
theorem writeLabel_new (h : Follows base account now fresh scope arrived drafted store drawn)
    {label : Label} (haccount : label.account = account)
    (none' : labelFound drafted.labels label.name = none)
    (new : store.labels.get label.id = none) (other : Sqlite) (same : other.labels = store.labels) :
    other.writeLabel label = .ok { other with labels := store.labels.set label.id label } := by
  unfold Sqlite.writeLabel
  rw [same, new]
  dsimp only [Option.map_none, Option.getD_none]
  have hclash : (store.labels.rows.find? fun row =>
      row.1 ≠ label.id && row.2.account = label.account && row.2.name = label.name) = none := by
    rw [List.find?_eq_none]
    intro row hrow hclash
    simp only [ne_eq, decide_not, Bool.and_eq_true, Bool.not_eq_eq_eq_not, Bool.not_true,
      decide_eq_false_iff_not, decide_eq_true_eq] at hclash
    exact h.not_named none' row.2 (List.mem_map_of_mem (f := Prod.snd) hrow)
      (hclash.1.2.trans haccount) hclash.2
  rw [hclash]

theorem make (h : Follows base account now fresh scope arrived drafted store drawn)
    (distinct : ∀ n m, fresh.label n = fresh.label m → n = m) (snapshot : ArrivalSnapshot)
    (label : Label) (haccount : label.account = account) (hid : label.id = fresh.label drawn)
    (none' : labelFound drafted.labels label.name = none) (id : ChangeId) :
    ∃ after made, store.commitSteps ⟨account, now, ⟨id, [.labelUpsert label]⟩, [], []⟩ =
        .ok (after, made) ∧
      Follows base account now fresh scope arrived ((Drafted.ledger snapshot).make drafted id label)
        after (drawn + 1) := by
  have hnew : store.labels.get label.id = none := hid ▸ h.unused drawn le_rfl
  have hwrite := h.writeLabel_new haccount none' hnew
  refine ⟨{ store with labels := store.labels.set label.id label }, [], ?_, ?_⟩
  · have hpatch : store.writePatch ⟨id, [.labelUpsert label]⟩ =
        .ok { store with labels := store.labels.set label.id label } := by
      simp only [Sqlite.writePatch, Sqlite.writeChanges, Sqlite.writeChange, hwrite store rfl, Except.map,
        touchSome, Sqlite.refreshAll]
    simp only [Sqlite.commitSteps, Sqlite.expectingAll, Sqlite.queueAll, hpatch, Sqlite.writeRows,
      List.zipWith_nil_left]
  · have hvalues : (store.labels.set label.id label).values = store.labels.values ++ [label] := by
      unfold Table.values
      rw [Table.rows_set_new hnew, List.map_append]
      rfl
    have hlabelsOf : ({ store with labels := store.labels.set label.id label } : Sqlite).labelsOf
        account = ((store.labels.values.filter fun label => label.account = account) ++
          [label]).insertionSort fun a b => a.name ≤ b.name := by
      have hone : [label].filter (fun label => decide (label.account = account)) = [label] :=
        List.filter_eq_self.mpr fun other hother =>
          List.mem_singleton.mp hother ▸ decide_eq_true haccount
      unfold Sqlite.labelsOf
      rw [hvalues, List.filter_append, hone]
    have hget : ∀ other, other ≠ label.id →
        (store.labels.set label.id label).get other = store.labels.get other := fun other hne => by
      rw [Table.get_set, if_neg hne]
    have hheld : ∀ other, store.labels.contains other = true →
        (store.labels.set label.id label).get other = store.labels.get other := by
      intro other hother
      refine hget other fun heq => ?_
      obtain ⟨value, hvalue⟩ := Table.contains_iff.mp hother
      rw [heq, hnew] at hvalue
      cases hvalue
    obtain ⟨touched, hforward, htouched⟩ := h.written
    obtain ⟨after, made, hqueue, hstore⟩ := h.queued
    refine ⟨⟨h.coherent.keyed, ?_, ?_, h.coherent.threaded, h.coherent.addressed⟩, h.rest, ?_, ?_,
      ?_, ?_, h.views, ?_, ?_, h.places⟩
    · intro other value hvalue
      rw [Table.get_set] at hvalue
      split at hvalue
      · rename_i heq
        cases hvalue
        exact heq.symm
      · exact h.coherent.labelled other value hvalue
    · intro a b ha hb hsame hname
      rw [hvalues, List.mem_append, List.mem_singleton] at ha hb
      rcases ha with ha | rfl <;> rcases hb with hb | rfl
      · exact h.coherent.named a b ha hb hsame hname
      · exact absurd hname (h.not_named none' a ha (hsame.trans haccount))
      · exact absurd hname.symm (h.not_named none' b hb (hsame.symm.trans haccount))
      · rfl
    · refine ⟨touched, ?_, htouched⟩
      change base.writeChanges [] (drafted.forward ++ [.labelUpsert label]) = _
      rw [Sqlite.writeChanges_append, hforward]
      simp only [Sqlite.writeChanges, Sqlite.writeChange,
        hwrite (holding base store) rfl, Except.map, touchSome]
      rfl
    · have halike : Sqlite.QueuesAlike (holding base store)
          (holding base { store with labels := store.labels.set label.id label }) :=
        ⟨fun _ => rfl, rfl, rfl, rfl, rfl, rfl⟩
      have hcongr := Sqlite.queueAll_congr drafted.queue halike
        (fun work hwork l hl => hheld l ((h.work work hwork).2 l hl)) account now .afterForward
      rw [hqueue] at hcongr
      refine ⟨_, _, hcongr, ?_⟩
      have hframe := Sqlite.queueAll_frame hqueue
      rw [hstore, hframe]
      rfl
    · intro work hwork
      refine ⟨(h.work work hwork).1, fun l hl => ?_⟩
      have hin := (h.work work hwork).2 l hl
      rw [Table.contains, hheld l hin]
      exact hin
    · intro k hk
      have hne : fresh.label k ≠ label.id := by
        intro heq
        have := distinct k drawn (heq.trans hid)
        omega
      rw [hget _ hne]
      exact h.unused k (by omega)
    · rw [hlabelsOf]
      exact (h.labels.trans (List.perm_insertionSort _ _)).append_right [label] |>.trans
        (List.perm_insertionSort _ _).symm
    · intro name
      rw [hlabelsOf]
      exact filter_named_more (h.named name) (labelFound_eq_none none')

/-! ## An operation written -/

omit [Unicode] in
theorem listed_modifyFirst (places : List (MessageId × Placing)) (id other : MessageId)
    (f : Placing → Placing) :
    ((Drafted.modifyFirst id f places).find? fun row => row.1 = other).map Prod.snd =
      if other = id then ((places.find? fun row => row.1 = id).map Prod.snd).map f
      else (places.find? fun row => row.1 = other).map Prod.snd := by
  induction places with
  | nil => split <;> rfl
  | cons row rest ih =>
    rw [Drafted.modifyFirst]
    by_cases hrow : row.1 = id
    · rw [if_pos hrow]
      by_cases heq : other = id
      · simp [hrow, heq]
      · have hne : ¬ id = other := fun h => heq h.symm
        simp [hrow, heq, hne]
    · rw [if_neg hrow]
      by_cases heq : other = id
      · subst heq
        simpa [List.find?_cons, hrow] using ih
      · rw [if_neg heq] at ih ⊢
        by_cases hother : row.1 = other
        · simp [hother]
        · simpa [List.find?_cons, hother] using ih

omit [Unicode] in
theorem forall₂_imp_mem {α β : Type} {R S : α → β → Prop} {xs : List α} {ys : List β}
    (h : List.Forall₂ R xs ys) (imp : ∀ x y, y ∈ ys → R x y → S x y) : List.Forall₂ S xs ys := by
  induction h with
  | nil => exact .nil
  | cons hone _ ih =>
    exact .cons (imp _ _ (.head _) hone)
      (ih fun x y hy => imp x y (.tail _ hy))

variable {after : Sqlite} {id : MessageId} {m : Message} {settings : List Setting}
  {names : List LabelId}

omit [Unicode] in
/-- One conversation of a scope is changed, and reads alike after; the others do as before. -/
theorem shows_modifyHolding (coherent : store.Coherent) (hm : store.messages.get id = some m)
    {f : ThreadView → ThreadView} {views : List ThreadView}
    (h : List.Forall₂ (Shows store) views scope) (distinct : scope.Nodup)
    (others : ∀ view thread, Shows store view thread → thread ≠ m.thread → Shows after view thread)
    (here : ∀ view, Shows store view m.thread → Shows after (f view) m.thread) :
    List.Forall₂ (Shows after) (Drafted.modifyHolding id f views) scope := by
  induction h with
  | nil => exact .nil
  | @cons view thread views scope hone hrest ih =>
    rw [List.nodup_cons] at distinct
    rw [Drafted.modifyHolding]
    by_cases hholds : view.holds id = true
    · rw [if_pos hholds]
      obtain ⟨found, hfound, rfl⟩ := (holds_iff coherent hone).mp hholds
      have hsame : found = m := by
        rw [hm] at hfound
        exact (Option.some.inj hfound).symm
      subst hsame
      refine .cons (here view hone) (forall₂_imp_mem hrest fun view thread hthread hshows => ?_)
      exact others view thread hshows fun heq => distinct.1 (heq ▸ hthread)
    · rw [if_neg hholds]
      refine .cons (others view thread hone fun heq => hholds ?_) (ih distinct.2)
      exact (holds_iff coherent hone).mpr ⟨m, hm, heq.symm⟩

/-- A store after one operation in a commit of its own. -/
structure Own (store : Sqlite) (account : AccountId) (now : DateTime) (id : MessageId) (m : Message)
    (settings : List Setting) (queue : List Commit.Queue) (after : Sqlite) : Prop where
  rewritten : Rewritten store after id m settings
  coherent : after.Coherent
  frame : after = { (store.settle id settings).withQueue after with summaries := after.summaries }
  queued : ∃ made, ({ store.settle id settings with summaries := after.summaries } :
    Sqlite).queueAll account now .afterForward queue = .ok (after, made)
  folders : ∀ folder other, after.foldersQueued folder other = store.foldersQueued folder other ++
    if other = id then queue.filterMap fun work => store.folderOf folder account work.intent else []

variable {commit : Commit} {queue : List Commit.Queue} {labels : List Label}
  {places : List (MessageId × Placing)}

theorem own_commit (account : AccountId) {labels : List LabelId} (coherent : store.Coherent)
    (hm : store.messages.get id = some m)
    (changes : commit.forward.changes = settings.map (Change.ofSetting id)) (some' : settings ≠ [])
    (held : ∀ l, Setting.label l .in ∈ settings → store.labels.contains l = true)
    (rows : commit.rows = []) (one : commit.queue.length ≤ 1)
    (work : ∀ work ∈ commit.queue, work.resolve = .afterForward ∧ work.unplaced = .skip ∧
      Carries labels id work.intent) :
    ∃ after made, store.commitSteps { commit with account := account } = .ok (after, made) ∧
      Own store account commit.now id m settings commit.queue after := by
  obtain ⟨state, old, hstate, hold, hid, hmute⟩ := coherent.threaded id m hm
  have hget : (store.settle id settings).messages.get id = some (Registers.putAll m settings) := by
    rw [Sqlite.get_settle, if_pos rfl, hm]
    rfl
  have hthread : (Registers.putAll m settings).thread = m.thread :=
    Message.eq_of_rest (Message.rest_putAll m settings) Message.thread fun _ => rfl
  obtain ⟨summary, hsummary, hsmute, hrefresh⟩ :=
    Sqlite.refreshSummary_held hget (hthread.symm ▸ hstate)
  rw [hthread] at hsummary hrefresh
  -- The patch: the settings, and the summary of the one conversation touched.
  let patched : Sqlite :=
    { store.settle id settings with
      summaries := (store.settle id settings).summaries.set m.thread summary }
  have hpatch : store.writePatch commit.forward = .ok patched := by
    have hempty : settings.isEmpty = false := by simpa using some'
    unfold Sqlite.writePatch
    rw [changes, Sqlite.writeChanges_ofSetting hm held []]
    simp only [hempty, Bool.false_eq_true, if_false]
    have htouch : touch [] m.thread = [m.thread] := rfl
    rw [htouch, Sqlite.refreshAll, hrefresh]
    rfl
  have hcontains : patched.messages.contains id = true := Table.contains_iff.mpr ⟨_, hget⟩
  obtain ⟨after, made, hqueue, hfolders⟩ :=
    Sqlite.queueAll_carries one work hcontains account commit.now
  have hframe := Sqlite.queueAll_frame hqueue
  have hlater : ∀ other ∈ commit.queue, other.resolve ≠ .beforeForward := fun other hother => by
    rw [(work other hother).1]
    exact fun h => Commit.Resolve.noConfusion h
  have hbefore := store.queueAll_skip account commit.now hlater
  have hsummaries : after.summaries = store.summaries.set m.thread summary := by
    rw [hframe]
    rfl
  have hothers : ∀ thread, thread ≠ m.thread →
      after.summaries.get thread = store.summaries.get thread := fun thread hne => by
    rw [hsummaries, Table.get_set, if_neg hne]
  have hhere : after.summaries.get m.thread = some summary := by
    rw [hsummaries, Table.get_set, if_pos rfl]
  have hafter : after =
      { (store.settle id settings).withQueue after with summaries := after.summaries } := by
    rw [hsummaries]
    exact hframe
  refine ⟨after, (commit.queue.map fun _ => none).zipWith Option.or made, ?_,
    ⟨hm, ?_, hothers, old, summary, hold, hhere, ?_, ?_⟩, ?_, hafter,
    ⟨made, ?_⟩, hfolders⟩
  · unfold Sqlite.commitSteps
    rw [rows]
    simp only [Sqlite.expectingAll, hbefore, hpatch, hqueue, Sqlite.writeRows]
  · rw [hframe]
    rfl
  · rw [hsummary, hid]
  · rw [hsmute, hmute]
  · refine coherent.of_settled id settings m ?_ ?_ ?_ ?_ hothers
      ⟨state, summary, hstate, hhere, hsummary, hsmute⟩
    all_goals
      rw [hframe]
      rfl
  · rw [hsummaries]
    exact hqueue

/-- More folders a message is on its way to. -/
def bound (folders : List String) (places : Placing) : Placing :=
  { places with moving := places.moving ++ folders }

omit [Unicode] in
theorem map_bound_nil (places : Option Placing) : places.map (bound []) = places := by
  cases places with
  | none => rfl
  | some places => simp [bound]

omit [Unicode] in
/-- An operation of its own adds the folders it moves its message to, and nothing else. -/
theorem placing_after (own : Own store account now id m settings queue after)
    (work : ∀ work ∈ queue, Carries names id work.intent) (other : MessageId) :
    after.placing other = (store.placing other).map (bound
      (if other = id then
        queue.filterMap fun work => store.folderOf Sqlite.movedTo account work.intent
      else [])) := by
  have hcopied : (queue.filterMap fun work => store.folderOf Sqlite.copiedTo account work.intent) =
      [] :=
    List.filterMap_eq_nil_iff.mpr fun work' hwork =>
      (Sqlite.folderOf_carries (work work' hwork) account).1
  have hremote : after.mailboxesOf other = store.mailboxesOf other := by
    rw [own.frame]
    rfl
  have hunplaced : ∀ account, after.isUnplaced account other = store.isUnplaced account other := by
    intro account
    rw [own.frame]
    rfl
  have hcopying : after.foldersQueued Sqlite.copiedTo other =
      store.foldersQueued Sqlite.copiedTo other := by
    rw [own.folders, hcopied, ite_self, List.append_nil]
  have hmoving := own.folders Sqlite.movedTo other
  unfold Sqlite.placing
  rw [own.rewritten.messages, Sqlite.get_settle, hcopying, hmoving, hremote]
  simp only [hunplaced]
  cases hget : store.messages.get other with
  | none => split <;> rfl
  | some held =>
    have hheld : (Registers.putAll held settings).account = held.account :=
      Message.eq_of_rest (Message.rest_putAll held settings) Message.account fun _ => rfl
    by_cases heq : other = id
    · simp only [if_pos heq, Option.map_some, hheld, bound]
    · simp only [if_neg heq, Option.map_some, bound]

omit [Unicode] in
/-- What is noted of a move: its message is bound for the folder, when the server holds it. -/
theorem sendTo_eq (coherent : store.Coherent) (hm : store.messages.get id = some m)
    (haccount : m.account = account) (folder : String) :
    (store.placing id).map (Drafted.sendTo account folder false) =
      (store.placing id).map (bound
        (if store.refsFor account [id] = [] ∧ store.isUnplaced account id = false then []
        else [folder])) := by
  have hrefs := Sqlite.refsFor_eq_nil coherent hm
  rw [haccount] at hrefs
  unfold Sqlite.placing
  rw [hm, Option.map_some, Option.map_some, Option.map_some, haccount]
  refine congrArg some ?_
  unfold Drafted.sendTo bound
  by_cases hmail : store.mailboxesOf id = []
  · cases hwaits : store.isUnplaced account id <;> simp [hmail, hrefs.mpr hmail]
  · have hsorted : ((store.mailboxesOf id).insertionSort (· ≤ ·)) ≠ [] := by
      intro hnil
      have hperm := List.perm_insertionSort (· ≤ ·) (store.mailboxesOf id)
      rw [hnil] at hperm
      exact hmail hperm.symm.eq_nil
    have hrefs' : ¬ store.refsFor account [id] = [] := mt hrefs.mp hmail
    simp [hsorted, hrefs']

omit [Unicode] in
theorem listed_noted (coherent : store.Coherent) (hm : store.messages.get id = some m)
    (haccount : m.account = account) {intent : RemoteIntent} (carries : Carries names id intent)
    (known : ∀ label ∈ names, ∃ held, labels.find? (fun other => other.id = label) = some held ∧
      store.labels.get label = some held) (other : MessageId)
    (h : (places.find? fun row => row.1 = other).map Prod.snd = store.placing other) :
    ((Drafted.noteQueued account labels places intent).find? fun row => row.1 = other).map Prod.snd =
      (store.placing other).map (bound
        (if other = id then (store.folderOf Sqlite.movedTo account intent).toList else [])) := by
  rw [(Sqlite.folderOf_carries carries account).2]
  cases carries with
  | file label mem =>
    obtain ⟨held, hfind, hget⟩ := known label mem
    simp only [Drafted.noteQueued, hfind, List.foldl_cons, List.foldl_nil, hget, Option.map_some]
    rw [listed_modifyFirst]
    by_cases heq : other = id
    · subst heq
      rw [if_pos rfl, if_pos rfl, h, sendTo_eq coherent hm haccount]
      split <;> rfl
    · rw [if_neg heq, if_neg heq, h, map_bound_nil]
  | _ =>
    simp only [Drafted.noteQueued, Option.toList_none, ite_self]
    rw [h, map_bound_nil]

omit [Unicode] in
theorem placing_own (coherent : store.Coherent)
    (own : Own store account now id m settings queue after) (haccount : m.account = account)
    (one : queue.length ≤ 1) (work : ∀ work ∈ queue, Carries names id work.intent)
    (known : ∀ label ∈ names, ∃ held, labels.find? (fun other => other.id = label) = some held ∧
      store.labels.get label = some held) (other : MessageId)
    (h : (places.find? fun row => row.1 = other).map Prod.snd = store.placing other) :
    (((queue.map Commit.Queue.intent).foldl (Drafted.noteQueued account labels) places).find?
      fun row => row.1 = other).map Prod.snd = after.placing other := by
  rw [placing_after own work]
  cases queue with
  | nil =>
    rw [List.filterMap_nil, ite_self, map_bound_nil]
    exact h
  | cons only rest =>
    have hrest : rest = [] := by
      rw [List.length_cons] at one
      exact List.length_eq_zero_iff.mp (by omega)
    subst hrest
    have hnoted := listed_noted coherent own.rewritten.held haccount
      (work only (.head _)) known other h
    have hlist : ([only].filterMap fun work =>
        store.folderOf Sqlite.movedTo account work.intent) =
          (store.folderOf Sqlite.movedTo account only.intent).toList := by
      cases hfolder : store.folderOf Sqlite.movedTo account only.intent <;> simp [hfolder]
    rw [List.map_cons, List.map_nil, List.foldl_cons, List.foldl_nil, hnoted, hlist]

omit [Unicode] in
/-- A label found in memory is the row of the store under its id. -/
theorem row_of_known (h : Follows base account now fresh scope arrived drafted store drawn)
    {label : LabelId} (known : ∃ other ∈ drafted.labels, other.id = label) :
    ∃ other, drafted.labels.find? (fun other => other.id = label) = some other ∧
      store.labels.get label = some other := by
  have hget : ∀ other ∈ drafted.labels, store.labels.get other.id = some other := by
    intro other hother
    have hmem := (List.mem_insertionSort _).mp (h.labels.mem_iff.mp hother)
    obtain ⟨⟨key, value⟩, hpair, rfl⟩ := List.mem_map.mp (List.mem_filter.mp hmem).1
    have hget := Table.mem_rows.mp hpair
    rw [h.coherent.labelled key value hget]
    exact hget
  cases hfind : drafted.labels.find? fun other => other.id = label with
  | none =>
    obtain ⟨other, hother, hid⟩ := known
    exact absurd (decide_eq_true hid) (List.find?_eq_none.mp hfind other hother)
  | some other =>
    have hid : other.id = label := by simpa using List.find?_some hfind
    exact ⟨other, rfl, hid ▸ hget other (List.mem_of_find?_eq_some hfind)⟩

theorem write (h : Follows base account now fresh scope arrived drafted store drawn)
    (distinct : scope.Nodup) {snapshot : ArrivalSnapshot} (hsnapshot : snapshot.account = account)
    (hm : store.messages.get id = some m) (haccount : m.account = account)
    (changes : commit.forward.changes = settings.map (Change.ofSetting id)) (some' : settings ≠ [])
    (rows : commit.rows = []) (hnow : commit.now = now) (one : commit.queue.length ≤ 1)
    (work : ∀ work ∈ commit.queue, work.resolve = .afterForward ∧ work.unplaced = .skip ∧
      Carries names id work.intent) (held : ∀ l, Setting.label l .in ∈ settings → l ∈ names)
    (known : ∀ label ∈ names, ∃ other ∈ drafted.labels, other.id = label) :
    ∃ after made, store.commitSteps { commit with account := account } = .ok (after, made) ∧
      Follows base account now fresh scope arrived
        ((Drafted.ledger snapshot).write drafted id commit) after drawn := by
  have hrow := fun label hlabel => h.row_of_known (known label hlabel)
  have hcontains : ∀ label ∈ names, store.labels.contains label = true := fun label hlabel => by
    obtain ⟨other, -, hget⟩ := hrow label hlabel
    exact Table.contains_iff.mpr ⟨other, hget⟩
  obtain ⟨after, made, hcommit, own⟩ := own_commit account h.coherent hm changes some'
    (fun l hl => hcontains l (held l hl)) rows one work
  rw [hnow] at own
  have hlabels : after.labels = store.labels := by
    rw [own.frame]
    rfl
  have hsame : after.labelsOf account = store.labelsOf account := by
    unfold Sqlite.labelsOf
    rw [hlabels]
  have hholding : holding base after = (holding base store).settle id settings := by
    unfold holding
    rw [own.rewritten.messages, hlabels]
    rfl
  obtain ⟨touched, hforward, htouched⟩ := h.written
  obtain ⟨queued, qmade, hqueue, hstore⟩ := h.queued
  have hqframe := Sqlite.queueAll_frame hqueue
  obtain ⟨mine, hmine⟩ := own.queued
  refine ⟨after, made, hcommit, ?_⟩
  constructor
  case coherent => exact own.coherent
  case rest =>
    intro other
    rw [own.rewritten.messages, Sqlite.get_settle, ← h.rest]
    split
    · rw [Option.map_map]
      exact congrFun (congrArg Option.map (funext fun m => Message.rest_putAll m settings)) _
    · rfl
  case written =>
    refine ⟨touch touched m.thread, ?_, ?_⟩
    · have hempty : settings.isEmpty = false := by simpa using some'
      change base.writeChanges [] (drafted.forward ++ commit.forward.changes) = _
      have hmHolding : (holding base store).messages.get id = some m := hm
      rw [Sqlite.writeChanges_append, hforward, changes]
      dsimp only
      rw [Sqlite.writeChanges_ofSetting hmHolding (fun l hl => hcontains l (held l hl)), hempty,
        hholding]
      rfl
    · intro thread hthread
      rcases mem_touch.mp hthread with rfl | hbefore
      · have hrest := h.rest id
        rw [hm] at hrest
        obtain ⟨old, hold, heq⟩ := Option.map_eq_some_iff.mp hrest.symm
        exact ⟨id, old, hold, Message.eq_of_rest heq Message.thread fun _ => rfl⟩
      · exact htouched thread hbefore
  case queued =>
    have halike : Sqlite.QueuesAlike (holding base store) (holding base after) := by
      rw [hholding]
      exact ⟨fun other => Sqlite.contains_settle _ id other settings, rfl, rfl, rfl, rfl, rfl⟩
    have hfirst := Sqlite.queueAll_congr drafted.queue halike
      (fun _ _ l _ => congrArg (fun labels => Table.get labels l) hlabels) account now .afterForward
    rw [hqueue] at hfirst
    have hnext : Sqlite.QueuesAlike
        { store.settle id settings with summaries := after.summaries }
        ((holding base after).withQueue queued) := by
      rw [hholding, hstore, hqframe]
      exact ⟨fun _ => rfl, rfl, rfl, rfl, rfl, rfl⟩
    have hsecond := Sqlite.queueAll_congr commit.queue hnext
      (fun _ _ l _ => congrArg (fun labels => Table.get labels l) hlabels) account now .afterForward
    rw [hmine] at hsecond
    refine ⟨_, _, Sqlite.queueAll_append hfirst hsecond, ?_⟩
    rw [hholding, own.frame, h.frame]
    rfl
  case work =>
    intro other hother
    rw [hlabels]
    rcases List.mem_append.mp hother with hbefore | hmine'
    · exact h.work other hbefore
    · obtain ⟨hresolve, -, hcarries⟩ := work other hmine'
      refine ⟨hresolve, fun l hl => hcontains l ?_⟩
      cases hintent : other.intent <;> rw [hintent] at hcarries hl <;> cases hcarries
      all_goals simp [labelsIn] at hl
      all_goals
        subst hl
        assumption
  case unused =>
    intro k hk
    rw [hlabels]
    exact h.unused k hk
  case views =>
    refine shows_modifyHolding h.coherent hm h.views distinct ?_ ?_
    · intro view thread hshows hne
      exact (shows_rewritten h.coherent own.coherent own.rewritten hshows commit.forward.id).1 hne
    · intro view hshows
      have hafter := (shows_rewritten h.coherent own.coherent own.rewritten hshows
        commit.forward.id).2 rfl
      rw [← changes] at hafter
      exact hafter
  case labels =>
    rw [hsame]
    exact h.labels
  case named =>
    rw [hsame]
    exact h.named
  case places =>
    intro other hother old hold hon
    have hbefore := h.places other hother old hold hon
    change (((commit.queue.map Commit.Queue.intent).foldl
      (Drafted.noteQueued snapshot.account drafted.labels) drafted.places).find? _).map _ = _
    rw [hsnapshot]
    exact placing_own h.coherent own haccount one (fun work' hwork => (work work' hwork).2.2) hrow
      other hbefore

end Follows

end Mailo.Core
