import Mailo.Core.Follows

/-!
# One commit for an arrival, and one for each operation

The fold takes the same decisions over the conversations it keeps in memory as over the store read
again after every operation, and the one commit leaves what the commits of their own leave.
-/

namespace Mailo.Logic.ArrivalFold

variable {σ τ : Type}

/-- What a fold has come to, over another ledger. -/
def on (fold : ArrivalFold σ) (held : τ) : ArrivalFold τ :=
  { fold with held := held }

end Mailo.Logic.ArrivalFold

namespace Mailo.Core

open Domain Logic Store Library ArrivalFold

/-! ## What a rule is asked -/

/-- A message without its labels. -/
def bare (m : Message) : Message := { m with labels := [] }

variable {a b : Message}

theorem bare_of_same (h : a.Same b) : bare a = bare b := by
  have hbare : ∀ m : Message, bare m =
      { m.rest with read := m.read, star := m.star, flag := m.flag, mailbox := m.mailbox } :=
    fun _ => rfl
  rw [hbare, hbare, h.1, h.read_eq, h.star_eq, h.flag_eq, h.mailbox_eq]

theorem oneMessage_of_same [Unicode] (h : a.Same b) :
    oneMessage b = { oneMessage a with labels := (oneMessage b).labels } := by
  have hone : ∀ m : Message, oneMessage m =
      { oneMessage (bare m) with labels := (oneMessage m).labels } := fun _ => rfl
  rw [hone a, bare_of_same h]
  exact hone b

theorem mem_oneMessage_labels [Unicode] {m : Message} {label : LabelId} :
    label ∈ (oneMessage m).labels ↔ label ∈ m.labels := by
  change label ∈ ThreadSummary.labelsOf [m] ↔ _
  rw [ThreadSummary.mem_labelsOf]
  simp

section Along

variable [Unicode] {base : Sqlite} {account : AccountId} {now : DateTime} {fresh : Fresh}
  {scope : List ThreadId} {arrived : List MessageId} {snapshot : ArrivalSnapshot}

variable {store : Sqlite} {m : Message}

omit [Unicode] in
theorem alike_views {views : List ThreadView} (h : List.Forall₂ (Shows store) views scope) :
    List.Forall₂ Alike views (scope.filterMap (threadView store)) := by
  induction h with
  | nil => exact .nil
  | cons hone _ ih =>
    obtain ⟨read, hread, halike⟩ := hone
    rw [List.filterMap_cons_some hread]
    exact .cons halike ih

/-- Two folds that have decided the same, over what is gathered and over the store. -/
def Along (base : Sqlite) (account : AccountId) (now : DateTime) (fresh : Fresh)
    (scope : List ThreadId) (arrived : List MessageId) (f : ArrivalFold Drafted)
    (g : ArrivalFold (Except StoreError Sqlite)) : Prop :=
  ∃ store, Follows base account now fresh scope arrived f.held store f.labelsDrawn ∧
    g = f.on (.ok store)

variable {f : ArrivalFold Drafted} {g : ArrivalFold (Except StoreError Sqlite)}

omit [Unicode] in
/-- What a fold notes beside its ledger is noted alike. -/
theorem Along.noted (h : Along base account now fresh scope arrived f g)
    {f' : ArrivalFold Drafted} {g' : ArrivalFold (Except StoreError Sqlite)}
    (hheld : f'.held = f.held) (hdrawn : f'.labelsDrawn = f.labelsDrawn)
    (hon : ∀ store, g = f.on (.ok store) → g' = f'.on (.ok store)) :
    Along base account now fresh scope arrived f' g' := by
  obtain ⟨store, hfollows, hg⟩ := h
  exact ⟨store, by rwa [hheld, hdrawn], hon store hg⟩

theorem message_along (snapshot : ArrivalSnapshot)
    (h : Along base account now fresh scope arrived f g) (id : MessageId) :
    Option.Rel Message.Same (f.message (Drafted.ledger snapshot) id)
      (g.message (eachInItsOwn account now scope) id) := by
  obtain ⟨store, hfollows, rfl⟩ := h
  exact find_alike (messages_alike (alike_views hfollows.views)) id

theorem viewOf_along (snapshot : ArrivalSnapshot)
    (h : Along base account now fresh scope arrived f g) (id : MessageId) :
    Option.Rel Alike (f.viewOf (Drafted.ledger snapshot) id)
      (g.viewOf (eachInItsOwn account now scope) id) := by
  obtain ⟨store, hfollows, rfl⟩ := h
  exact viewOf_alike (alike_views hfollows.views) id

omit [Unicode] in
theorem inbox_of_rel {a b : Option Message} (h : Option.Rel Message.Same a b) :
    (a.any fun m => m.mailbox = .inbox) = b.any fun m => m.mailbox = .inbox := by
  cases h with
  | none => rfl
  | some hsame => simp only [Option.any_some, hsame.mailbox_eq]

variable {id : MessageId}

omit [Unicode] in
theorem message_held (coherent : store.Coherent)
    (h : ((scope.filterMap (threadView store)).flatMap ThreadView.messages).find?
      (fun m => m.id = id) = some m) :
    ∃ held, store.messages.get id = some held ∧ Sqlite.shown held = m := by
  have hid : m.id = id := by simpa using List.find?_some h
  obtain ⟨view, hview, hm⟩ := List.mem_flatMap.mp (List.mem_of_find?_eq_some h)
  obtain ⟨thread, -, hread⟩ := List.mem_filterMap.mp hview
  obtain ⟨held, hget, -, hshown⟩ := (mem_threadView coherent hread).mp hm
  have hheld : held.id = id := by rw [← hid, ← hshown]; rfl
  exact ⟨held, hheld ▸ hget, hshown⟩

/-- A message an arrival may act on: asked about, and on the account. -/
def Picked (base : Sqlite) (account : AccountId) (arrived : List MessageId) (id : MessageId) :
    Prop :=
  id ∈ arrived ∧ ∃ m, base.messages.get id = some m ∧ m.account = account

theorem picked_of_message (h : Along base account now fresh scope arrived f g) (mem : id ∈ arrived)
    (hm : g.message (eachInItsOwn account now scope) id = some m) (haccount : m.account = account) :
    Picked base account arrived id := by
  obtain ⟨store, hfollows, rfl⟩ := h
  obtain ⟨held, hget, hshown⟩ := message_held hfollows.coherent hm
  have hrest := hfollows.rest id
  rw [hget] at hrest
  obtain ⟨old, hold, heq⟩ := Option.map_eq_some_iff.mp hrest.symm
  refine ⟨mem, old, hold, ?_⟩
  rw [Message.eq_of_rest heq Message.account fun _ => rfl, ← haccount, ← hshown]
  rfl

theorem labelNamed_along (h : Along base account now fresh scope arrived f g)
    (distinct : ∀ n m, fresh.label n = fresh.label m → n = m) (hsnapshot : snapshot.account = account)
    (name : String) (origin : LabelOrigin) :
    Along base account now fresh scope arrived
        (f.labelNamed snapshot (Drafted.ledger snapshot) fresh name origin).1
        (g.labelNamed snapshot (eachInItsOwn account now scope) fresh name origin).1 ∧
      (f.labelNamed snapshot (Drafted.ledger snapshot) fresh name origin).2 =
        (g.labelNamed snapshot (eachInItsOwn account now scope) fresh name origin).2 ∧
      ∃ label ∈ (f.labelNamed snapshot (Drafted.ledger snapshot) fresh name origin).1.held.labels,
        label.id = (f.labelNamed snapshot (Drafted.ledger snapshot) fresh name origin).2 := by
  obtain ⟨store, hfollows, rfl⟩ := h
  have hfound : labelFound (f.held.labels) name = labelFound (store.labelsOf account) name :=
    hfollows.found name
  have hf : (Drafted.ledger snapshot).labels f.held = f.held.labels := rfl
  have hg : (eachInItsOwn account now scope).labels (f.on (.ok store)).held =
      store.labelsOf account := rfl
  cases hname : labelFound f.held.labels name with
  | some label =>
    unfold labelNamed
    rw [hf, hg, ← hfound, hname]
    exact ⟨⟨store, hfollows, rfl⟩, rfl, labelFound_mem hname⟩
  | none =>
    obtain ⟨after, made, hcommit, hafter⟩ := hfollows.make distinct snapshot
      ⟨fresh.label f.labelsDrawn, snapshot.account, name, none, origin⟩ hsnapshot rfl
      hname (fresh.change f.changesDrawn)
    unfold labelNamed
    rw [hf, hg, ← hfound, hname]
    refine ⟨⟨after, hafter, ?_⟩, rfl, ?_⟩
    · simp only [on, eachInItsOwn, bind, Except.bind, hcommit, pure, Except.pure]
    · exact ⟨_, List.mem_append_right _ (List.mem_singleton.mpr rfl), rfl⟩

theorem perform_along (h : Along base account now fresh scope arrived f g) (hscope : scope.Nodup)
    (hsnapshot : snapshot.account = account) (picked : Picked base account arrived id) (op : Op)
    (arrives : op.arrives = true)
    (known : ∀ label ∈ op.names, ∃ other ∈ f.held.labels, other.id = label) :
    Along base account now fresh scope arrived
      (f.perform snapshot (Drafted.ledger snapshot) now fresh op id)
      (g.perform snapshot (eachInItsOwn account now scope) now fresh op id) := by
  have hviews := viewOf_along snapshot h id
  obtain ⟨store, hfollows, rfl⟩ := h
  unfold perform
  generalize hread : (f.on (Except.ok store : Except StoreError Sqlite)).viewOf
    (eachInItsOwn account now scope) id = right at hviews ⊢
  generalize f.viewOf (Drafted.ledger snapshot) id = left at hviews ⊢
  cases hviews with
  | none => exact ⟨store, hfollows, rfl⟩
  | @some view read halike =>
    obtain ⟨thread, -, hthread⟩ :=
      List.mem_filterMap.mp (List.mem_of_find?_eq_some hread)
    have hnodup := shows_nodup hfollows.coherent hthread
    have hholds : read.holds id = true := by simpa using List.find?_some hread
    obtain ⟨m, hm, hid⟩ := List.any_eq_true.mp hholds
    have hid : m.id = id := of_decide_eq_true hid
    subst hid
    obtain ⟨held, hget, -, hshown⟩ := (mem_threadView hfollows.coherent hthread).mp hm
    have hheld : held.id = m.id := by rw [← hshown]; rfl
    rw [hheld] at hget
    obtain ⟨commit, hcommit, hwritten, hnow⟩ := applied_written arrives hnodup hm
      read.thread.summary.id snapshot.caps snapshot.hasServer now
      (fresh.change f.changesDrawn) (fresh.change (f.changesDrawn + 1))
    have haccount : held.account = account := by
      obtain ⟨-, old, hold, holdAccount⟩ := picked
      have hrest := hfollows.rest m.id
      rw [hget, hold, Option.map_some, Option.map_some, Option.some.injEq] at hrest
      rw [Message.eq_of_rest hrest Message.account fun _ => rfl, holdAccount]
    dsimp only
    rw [halike.id, applied_alike arrives halike hnodup hholds, hcommit]
    have hdrawn : (f.on (Except.ok store : Except StoreError Sqlite)).changesDrawn =
        f.changesDrawn := rfl
    rw [hdrawn, hcommit]
    dsimp only
    cases hempty : commit.forward.changes.isEmpty with
    | true => exact ⟨store, hfollows, rfl⟩
    | false =>
      have hsome : op.writes m ≠ [] := by
        intro hnil
        rw [hwritten.changes, hnil] at hempty
        cases hempty
      obtain ⟨after, made, hafter, hnext⟩ := hfollows.write hscope hsnapshot hget haccount
        hwritten.changes hsome hwritten.rows hnow hwritten.one hwritten.queue
        (fun l hl => (Op.label_of_writes arrives hl).2) known
      refine ⟨after, hnext, ?_⟩
      simp only [Bool.false_eq_true, if_false, on, eachInItsOwn, bind, Except.bind, hafter,
        pure, Except.pure]

theorem fits_along [FoldTable] (snapshot : ArrivalSnapshot)
    (h : Along base account now fresh scope arrived f g)
    {a b : Message} (same : a.Same b) (picked : Picked base account arrived a.id) (rule : Rule) :
    rule.fits (f.ctxOf snapshot (Drafted.ledger snapshot) now a) =
      rule.fits (g.ctxOf snapshot (eachInItsOwn account now scope) now b) := by
  obtain ⟨store, hfollows, rfl⟩ := h
  obtain ⟨mem, m, hm, haccount⟩ := picked
  have hplaces : (Drafted.ledger snapshot).places f.held a.id =
      (eachInItsOwn account now scope).places (.ok store) a.id := hfollows.places a.id mem m hm haccount
  have hplaced : f.placed snapshot (Drafted.ledger snapshot) a =
      (f.on (.ok store : Except StoreError Sqlite)).placed snapshot
        (eachInItsOwn account now scope) b := by
    unfold ArrivalFold.placed
    rw [same.id_eq] at hplaces
    rw [same.id_eq, hplaces, same.mailbox_eq]
    rfl
  have hbody : a.body = b.body := Message.eq_of_rest same.1 Message.body fun _ => rfl
  have hcc : a.cc = b.cc := Message.eq_of_rest same.1 Message.cc fun _ => rfl
  have hsize : messageSize a = messageSize b := Message.eq_of_rest same.1 messageSize fun _ => rfl
  have hctx : (f.on (.ok store : Except StoreError Sqlite)).ctxOf snapshot
      (eachInItsOwn account now scope) now b =
        Filter.relabelled (f.ctxOf snapshot (Drafted.ledger snapshot) now a)
          (oneMessage b).labels := by
    unfold ctxOf Filter.relabelled
    rw [hplaced, hbody, hcc, hsize, oneMessage_of_same same]
  unfold Rule.fits
  rw [hctx, Filter.fit_relabelled]
  intro l
  change l ∈ (oneMessage b).labels ↔ l ∈ (oneMessage a).labels
  rw [mem_oneMessage_labels, mem_oneMessage_labels]
  exact (same.mem_labels l).symm

omit [Unicode] in
theorem say_along (h : Along base account now fresh scope arrived f g) (id : MessageId)
    (action : RuleAction) (rule : Rule) :
    Along base account now fresh scope arrived (f.say id action rule) (g.say id action rule) := by
  obtain ⟨store, hfollows, rfl⟩ := h
  cases action with
  | notify =>
    unfold say
    by_cases hsaid : f.effects.contains (.notice id) = true
    · have hsaid' : (f.on (.ok store : Except StoreError Sqlite)).effects.contains (.notice id) =
          true := hsaid
      rw [if_pos hsaid, if_pos hsaid']
      exact ⟨store, hfollows, rfl⟩
    · have hsaid' : ¬ (f.on (.ok store : Except StoreError Sqlite)).effects.contains (.notice id) =
          true := hsaid
      rw [if_neg hsaid, if_neg hsaid']
      exact ⟨store, hfollows, rfl⟩
  | _ => exact ⟨store, hfollows, rfl⟩

/-! ## Rules -/

section Steps

variable (hscope : scope.Nodup) (hsnapshot : snapshot.account = account)
  (distinct : ∀ n m, fresh.label n = fresh.label m → n = m)

include hscope hsnapshot distinct

omit hscope in
theorem opFor_along (h : Along base account now fresh scope arrived f g) (action : RuleAction) :
    ∃ f' op, f.opFor snapshot (Drafted.ledger snapshot) fresh action = (f', op) ∧
      ∃ g', g.opFor snapshot (eachInItsOwn account now scope) fresh action = (g', op) ∧
        Along base account now fresh scope arrived f' g' ∧
        ∀ one, op = some one → one.arrives = true ∧
          ∀ label ∈ one.names, ∃ other ∈ f'.held.labels, other.id = label := by
  have hplain : ∀ one : Op, one.arrives = true → one.names = [] →
      Along base account now fresh scope arrived f g ∧ ∀ other, some one = some other →
        other.arrives = true ∧ ∀ label ∈ other.names, ∃ held ∈ f.held.labels, held.id = label := by
    rintro one harrives hnames
    refine ⟨h, fun other heq => ?_⟩
    cases heq
    exact ⟨harrives, fun label hlabel => absurd hlabel (hnames ▸ List.not_mem_nil)⟩
  cases action with
  | label name =>
    obtain ⟨halong, hid, hknown⟩ := labelNamed_along h distinct hsnapshot name .user
    refine ⟨_, _, rfl, _, ?_, halong, ?_⟩
    · rw [opFor, ← hid]
    · rintro one ⟨⟩
      exact ⟨rfl, fun label hlabel => List.mem_singleton.mp hlabel ▸ hknown⟩
  | file path =>
    obtain ⟨halong, hid, hknown⟩ := labelNamed_along h distinct hsnapshot path .provider
    refine ⟨_, _, rfl, _, ?_, halong, ?_⟩
    · rw [opFor, ← hid]
    · rintro one ⟨⟩
      exact ⟨rfl, fun label hlabel => List.mem_singleton.mp hlabel ▸ hknown⟩
  | archive => exact ⟨f, _, rfl, g, rfl, hplain .archive rfl rfl⟩
  | trash => exact ⟨f, _, rfl, g, rfl, hplain .trash rfl rfl⟩
  | spam => exact ⟨f, _, rfl, g, rfl, hplain .spam rfl rfl⟩
  | markRead => exact ⟨f, _, rfl, g, rfl, hplain (.setRead .read) rfl rfl⟩
  | star => exact ⟨f, _, rfl, g, rfl, hplain (.setStar .starred) rfl rfl⟩
  | markUnread => exact ⟨f, _, rfl, g, rfl, hplain (.setRead .unread) rfl rfl⟩
  | notify | forward _ | reply _ => exact ⟨f, none, rfl, g, rfl, h, fun _ hnone => by cases hnone⟩

variable {id : MessageId}

theorem carryOut_along (h : Along base account now fresh scope arrived f g)
    (picked : Picked base account arrived id) (speaking : Speaking) (rule : Rule)
    (action : RuleAction) :
    Along base account now fresh scope arrived
      (f.carryOut snapshot (Drafted.ledger snapshot) now fresh id speaking rule action)
      (g.carryOut snapshot (eachInItsOwn account now scope) now fresh id speaking rule action) := by
  unfold carryOut
  by_cases hspeaks : speaks action = true
  · rw [if_pos hspeaks, if_pos hspeaks]
    cases speaking with
    | yes => exact say_along h id action rule
    | no => exact h
  · rw [if_neg hspeaks, if_neg hspeaks]
    obtain ⟨f', op, hf, g', hg, halong, hop⟩ := opFor_along hsnapshot distinct h action
    rw [hf, hg]
    cases op with
    | none => exact halong
    | some one =>
      obtain ⟨harrives, hknown⟩ := hop one rfl
      exact perform_along halong hscope hsnapshot picked one harrives hknown

omit [Unicode] hscope hsnapshot distinct in
theorem foldl_along {α : Type} {stepF : ArrivalFold Drafted → α → ArrivalFold Drafted}
    {stepG : ArrivalFold (Except StoreError Sqlite) → α → ArrivalFold (Except StoreError Sqlite)}
    (xs : List α)
    (step : ∀ x ∈ xs, ∀ f g, Along base account now fresh scope arrived f g →
      Along base account now fresh scope arrived (stepF f x) (stepG g x))
    (h : Along base account now fresh scope arrived f g) :
    Along base account now fresh scope arrived (xs.foldl stepF f) (xs.foldl stepG g) := by
  induction xs generalizing f g with
  | nil => exact h
  | cons x rest ih =>
    exact ih (fun y hy => step y (.tail _ hy)) (step x (.head _) f g h)

theorem rulesFrom_along [FoldTable] (picked : Picked base account arrived id) (speaking : Speaking)
    (rules : List Rule) (h : Along base account now fresh scope arrived f g) :
    Along base account now fresh scope arrived
        (f.rulesFrom snapshot (Drafted.ledger snapshot) now fresh id speaking rules).1
        (g.rulesFrom snapshot (eachInItsOwn account now scope) now fresh id speaking rules).1 ∧
      (f.rulesFrom snapshot (Drafted.ledger snapshot) now fresh id speaking rules).2 =
        (g.rulesFrom snapshot (eachInItsOwn account now scope) now fresh id speaking rules).2 := by
  induction rules generalizing f g with
  | nil => exact ⟨h, rfl⟩
  | cons rule rest ih =>
    have hmessage := message_along snapshot h id
    rw [rulesFrom, rulesFrom]
    generalize hb : g.message (eachInItsOwn account now scope) id = right at hmessage ⊢
    generalize ha : f.message (Drafted.ledger snapshot) id = left at hmessage ⊢
    cases hmessage with
    | none => exact ⟨h, rfl⟩
    | @some a b hsame =>
      have hid : a.id = id := by simpa using List.find?_some ha
      have hfits := fits_along snapshot h hsame (hid.symm ▸ picked) rule
      dsimp only
      rw [hfits]
      by_cases hfit : rule.fits (g.ctxOf snapshot (eachInItsOwn account now scope) now b) =
          true
      · rw [if_pos hfit, if_pos hfit]
        have hacted := foldl_along rule.actions
          (fun action _ f g hfg =>
            carryOut_along hscope hsnapshot distinct hfg picked speaking rule action) h
        by_cases hstop : rule.after = .stop
        · rw [if_pos hstop, if_pos hstop]
          exact ⟨hacted, rfl⟩
        · rw [if_neg hstop, if_neg hstop]
          have hrest := ih hacted
          exact ⟨hrest.1, congrArg (rule.name :: ·) hrest.2⟩
      · rw [if_neg hfit, if_neg hfit]
        exact ih h

theorem rulesOver_along [FoldTable] (picked : Picked base account arrived id) (rules : List Rule)
    (speaking : Speaking) (h : Along base account now fresh scope arrived f g) :
    Along base account now fresh scope arrived
      (f.rulesOver snapshot (Drafted.ledger snapshot) now fresh id rules speaking)
      (g.rulesOver snapshot (eachInItsOwn account now scope) now fresh id rules speaking) := by
  have hexamined : Along base account now fresh scope arrived
      { f with examined := f.examined + 1 } { g with examined := g.examined + 1 } := by
    obtain ⟨store, hfollows, rfl⟩ := h
    exact ⟨store, hfollows, rfl⟩
  obtain ⟨⟨store, hfollows, hon⟩, hfired⟩ :=
    rulesFrom_along hscope hsnapshot distinct picked speaking rules hexamined
  unfold ArrivalFold.rulesOver
  dsimp only
  rw [← hfired, hon]
  split
  · exact ⟨store, hfollows, rfl⟩
  · exact ⟨store, hfollows, rfl⟩

/-! ## Muted conversations and junk -/

omit distinct in
theorem perform_plain (h : Along base account now fresh scope arrived f g)
    (picked : Picked base account arrived id) (op : Op) (arrives : op.arrives = true)
    (plain : op.names = []) :
    Along base account now fresh scope arrived
      (f.perform snapshot (Drafted.ledger snapshot) now fresh op id)
      (g.perform snapshot (eachInItsOwn account now scope) now fresh op id) :=
  perform_along h hscope hsnapshot picked op arrives fun _ hlabel =>
    absurd hlabel (plain ▸ List.not_mem_nil)

omit distinct in
theorem mute_along (picked : Picked base account arrived id)
    (h : Along base account now fresh scope arrived f g) :
    Along base account now fresh scope arrived
      (f.mute snapshot (Drafted.ledger snapshot) now fresh id)
      (g.mute snapshot (eachInItsOwn account now scope) now fresh id) := by
  have hviews := viewOf_along snapshot h id
  unfold ArrivalFold.mute
  generalize g.viewOf (eachInItsOwn account now scope) id = right at hviews ⊢
  generalize f.viewOf (Drafted.ledger snapshot) id = left at hviews ⊢
  cases hviews with
  | none => exact h
  | some halike =>
    dsimp only
    rw [halike.mute]
    split
    · exact h
    · have hread := perform_plain hscope hsnapshot h picked
        (.setRead .read) rfl rfl
      rw [inbox_of_rel (message_along snapshot hread id)]
      split
      · exact (perform_plain hscope hsnapshot hread picked .archive rfl rfl).noted rfl rfl
          fun _ hon => by rw [hon]; rfl
      · exact hread.noted rfl rfl fun _ hon => by rw [hon]; rfl

omit hscope hsnapshot distinct in
theorem judgedJunk_along [Judging] (h : Along base account now fresh scope arrived f g)
    {a b : Message} (same : a.Same b) :
    f.judgedJunk snapshot a = g.judgedJunk snapshot b := by
  obtain ⟨store, -, rfl⟩ := h
  have hbody : a.body = b.body := Message.eq_of_rest same.1 Message.body fun _ => rfl
  have hspared : ∀ known, spared known a snapshot.policy snapshot.names =
      spared known b snapshot.policy snapshot.names := fun known =>
    Message.eq_of_rest same.1 (fun m => spared known m snapshot.policy snapshot.names) fun _ => rfl
  have hcounts : ∀ counts taught, countsFor counts taught a = countsFor counts taught b :=
    fun counts taught => Message.eq_of_rest same.1 (countsFor counts taught) fun _ => rfl
  unfold judgedJunk
  rw [same.id_eq]
  cases snapshot.evidence.find? fun e => e.message = b.id with
  | none => rfl
  | some evidence =>
    dsimp only
    rw [hbody, hspared, hcounts]
    rfl

theorem siftOne_along [Judging] (mem : id ∈ arrived)
    (h : Along base account now fresh scope arrived f g) :
    Along base account now fresh scope arrived
      (f.siftOne snapshot (Drafted.ledger snapshot) now fresh id)
      (g.siftOne snapshot (eachInItsOwn account now scope) now fresh id) := by
  have hmessage := message_along snapshot h id
  unfold siftOne
  generalize hb : g.message (eachInItsOwn account now scope) id = right at hmessage ⊢
  generalize ha : f.message (Drafted.ledger snapshot) id = left at hmessage ⊢
  cases hmessage with
  | none => exact h
  | @some a b hsame =>
    have hwords : words a = words b := Message.eq_of_rest hsame.1 words fun _ => rfl
    dsimp only
    rw [hsame.account_eq, hsame.mailbox_eq, hwords, judgedJunk_along h hsame]
    by_cases haccount : b.account ≠ snapshot.account
    · rw [if_pos haccount, if_pos haccount]
      exact h
    · rw [if_neg haccount, if_neg haccount]
      rw [ne_eq, not_not] at haccount
      have picked := picked_of_message h mem hb (haccount.trans hsnapshot)
      by_cases hspam : b.mailbox = .spam
      · rw [if_pos hspam, if_pos hspam]
        obtain ⟨store, hfollows, rfl⟩ := h
        exact ⟨store, hfollows, rfl⟩
      · rw [if_neg hspam, if_neg hspam]
        by_cases hinbox : b.mailbox ≠ .inbox
        · rw [if_pos hinbox, if_pos hinbox]
          exact h
        · rw [if_neg hinbox, if_neg hinbox]
          cases hjunk : g.judgedJunk snapshot b with
          | false => exact h
          | true =>
            cases snapshot.policy.treat with
            | move =>
              exact (perform_plain hscope hsnapshot h picked .spam rfl rfl).noted rfl rfl
                fun _ hon => by rw [hon]; rfl
            | mark =>
              obtain ⟨halong, hid, hknown⟩ :=
                labelNamed_along h distinct hsnapshot junkLabel .user
              have hmarked := perform_along halong hscope hsnapshot picked
                (.label (f.labelNamed snapshot (Drafted.ledger snapshot) fresh
                  junkLabel .user).2 .in) rfl
                fun label hlabel => List.mem_singleton.mp hlabel ▸ hknown
              rw [if_pos rfl, if_pos rfl]
              rw [← hid]
              exact hmarked.noted rfl rfl fun _ hon => by rw [hon]; rfl

theorem sift_along [Judging] (h : Along base account now fresh scope arrived f g) :
    Along base account now fresh scope arrived
      (f.sift snapshot (Drafted.ledger snapshot) now fresh arrived)
      (g.sift snapshot (eachInItsOwn account now scope) now fresh arrived) := by
  unfold sift
  split
  · exact h
  · exact foldl_along arrived (fun id mem f g hfg => siftOne_along hscope hsnapshot distinct mem hfg) h

theorem deliver_along [FoldTable] (mem : id ∈ arrived) (rules : List Rule)
    (h : Along base account now fresh scope arrived f g) :
    Along base account now fresh scope arrived
      (f.deliver snapshot (Drafted.ledger snapshot) now fresh rules id)
      (g.deliver snapshot (eachInItsOwn account now scope) now fresh rules id) := by
  have hmessage := message_along snapshot h id
  unfold deliver
  generalize hb : g.message (eachInItsOwn account now scope) id = right at hmessage ⊢
  generalize ha : f.message (Drafted.ledger snapshot) id = left at hmessage ⊢
  cases hmessage with
  | none => exact h
  | @some a b hsame =>
    dsimp only
    rw [hsame.account_eq, hsame.mailbox_eq]
    by_cases hskip : b.account ≠ snapshot.account ∨ b.mailbox ≠ .inbox
    · rw [if_pos hskip, if_pos hskip]
      exact h
    · rw [if_neg hskip, if_neg hskip]
      rw [not_or, ne_eq, not_not] at hskip
      have picked := picked_of_message h mem hb (hskip.1.trans hsnapshot)
      refine mute_along hscope hsnapshot picked ?_
      split
      · exact h
      · exact rulesOver_along hscope hsnapshot distinct picked rules .yes h

theorem pick_along [FoldTable] (mem : id ∈ arrived) (rules : List Rule) (speaking : Speaking)
    (h : Along base account now fresh scope arrived f g) :
    Along base account now fresh scope arrived
      (f.pick snapshot (Drafted.ledger snapshot) now fresh rules speaking id)
      (g.pick snapshot (eachInItsOwn account now scope) now fresh rules speaking id) := by
  have hmessage := message_along snapshot h id
  unfold pick
  generalize hb : g.message (eachInItsOwn account now scope) id = right at hmessage ⊢
  generalize ha : f.message (Drafted.ledger snapshot) id = left at hmessage ⊢
  cases hmessage with
  | none => exact h
  | @some a b hsame =>
    dsimp only
    rw [hsame.account_eq]
    by_cases haccount : b.account ≠ snapshot.account
    · rw [if_pos haccount, if_pos haccount]
      exact h
    · rw [if_neg haccount, if_neg haccount]
      rw [ne_eq, not_not] at haccount
      have picked := picked_of_message h mem hb (haccount.trans hsnapshot)
      exact rulesOver_along hscope hsnapshot distinct picked rules speaking h

/-- Everything asked is decided alike over what is gathered and over the store. -/
theorem over_along [FoldTable] [Judging] (asked : Asked)
    (h : Along base account now fresh scope arrived f g) :
    Along base account now fresh scope arrived
      (asked.over snapshot (Drafted.ledger snapshot) now fresh f arrived)
      (asked.over snapshot (eachInItsOwn account now scope) now fresh g arrived) := by
  cases asked with
  | arrived =>
    have hsift := @sift_along _ base account now fresh scope arrived snapshot
    change Along base account now fresh scope arrived
      (f.onArrival snapshot (Drafted.ledger snapshot) now fresh arrived)
      (g.onArrival snapshot (eachInItsOwn account now scope) now fresh arrived)
    have hdeliver : ∀ {f : ArrivalFold Drafted} {g : ArrivalFold (Except StoreError Sqlite)},
        Along base account now fresh scope arrived f g →
        Along base account now fresh scope arrived
          (arrived.foldl (deliver snapshot (Drafted.ledger snapshot) now fresh
            (ordered snapshot.rules)) f)
          (arrived.foldl (deliver snapshot (eachInItsOwn account now scope) now fresh
            (ordered snapshot.rules)) g) := fun hfg =>
      foldl_along arrived (fun id mem f g hfg => deliver_along hscope hsnapshot distinct mem _ hfg) hfg
    unfold ArrivalFold.onArrival
    cases snapshot.policy.order with
    | afterRules => exact hsift hscope hsnapshot distinct (hdeliver h)
    | beforeRules => exact hdeliver (hsift hscope hsnapshot distinct h)
  | picked speaking =>
    change Along base account now fresh scope arrived
      (f.applyRules snapshot (Drafted.ledger snapshot) now fresh arrived speaking)
      (g.applyRules snapshot (eachInItsOwn account now scope) now fresh arrived speaking)
    unfold ArrivalFold.applyRules
    dsimp only
    split
    · exact h
    · exact foldl_along arrived
        (fun id mem f g hfg => pick_along hscope hsnapshot distinct mem _ speaking hfg) h

end Steps

end Along

end Mailo.Core
