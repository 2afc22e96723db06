import Mailo.Core.Gather
import Mailo.Store.Preview

/-!
# Decisions over messages alike

A message in memory and the same message read from the store differ in the order of their labels at
most. No rule, no operation and no judgement tells two such messages apart.
-/

namespace Mailo.Domain

open Library

namespace Filter

variable [FoldTable]

def relabelled (ctx : MatchCtx) (labels : List LabelId) : MatchCtx :=
  { ctx with summary := { ctx.summary with labels := labels } }

mutual

theorem fit_relabelled (filter : Filter) (ctx : MatchCtx) {labels : List LabelId}
    (h : ∀ l, l ∈ labels ↔ l ∈ ctx.summary.labels) :
    filter.fit (relabelled ctx labels) = filter.fit ctx := by
  cases filter with
  | hasLabel label =>
    rw [fit, fit, Bool.eq_iff_iff, List.contains_iff_mem, List.contains_iff_mem]
    exact h label
  | and parts => rw [fit, fit, fitAll_relabelled parts ctx h]
  | or parts => rw [fit, fit, fitAny_relabelled parts ctx h]
  | not inner => rw [fit, fit, fit_relabelled inner ctx h]
  | _ => rfl

theorem fitAll_relabelled (parts : List Filter) (ctx : MatchCtx) {labels : List LabelId}
    (h : ∀ l, l ∈ labels ↔ l ∈ ctx.summary.labels) :
    fitAll parts (relabelled ctx labels) = fitAll parts ctx := by
  cases parts with
  | nil => rw [fitAll, fitAll]
  | cons part rest =>
    rw [fitAll, fitAll, fit_relabelled part ctx h, fitAll_relabelled rest ctx h]

theorem fitAny_relabelled (parts : List Filter) (ctx : MatchCtx) {labels : List LabelId}
    (h : ∀ l, l ∈ labels ↔ l ∈ ctx.summary.labels) :
    fitAny parts (relabelled ctx labels) = fitAny parts ctx := by
  cases parts with
  | nil => rw [fitAny, fitAny]
  | cons part rest =>
    rw [fitAny, fitAny, fit_relabelled part ctx h, fitAny_relabelled rest ctx h]

end

end Filter

/-! ## Operations -/

/-- What no change writes reads the same of two messages that differ in nothing else. -/
theorem Message.eq_of_rest {β : Type} {a b : Message} (h : a.rest = b.rest) (f : Message → β)
    (hf : ∀ m : Message, f m.rest = f m) : f a = f b := by
  rw [← hf a, h, hf b]

namespace Message.Same

variable {a b : Message}

theorem id_eq (h : a.Same b) : a.id = b.id := eq_of_rest h.1 Message.id fun _ => rfl

theorem account_eq (h : a.Same b) : a.account = b.account :=
  eq_of_rest h.1 Message.account fun _ => rfl

theorem read_eq (h : a.Same b) : a.read = b.read := Setting.read.inj (h.2 .read)

theorem star_eq (h : a.Same b) : a.star = b.star := Setting.star.inj (h.2 .star)

theorem flag_eq (h : a.Same b) : a.flag = b.flag := Setting.flag.inj (h.2 .flag)

theorem mailbox_eq (h : a.Same b) : a.mailbox = b.mailbox := Setting.mailbox.inj (h.2 .mailbox)

theorem contains_eq (h : a.Same b) (l : LabelId) : a.labels.contains l = b.labels.contains l := by
  rw [Bool.eq_iff_iff, List.contains_iff_mem, List.contains_iff_mem]
  exact h.mem_labels l

theorem put (h : a.Same b) (s : Setting) : (a.put s).Same (b.put s) := by
  refine ⟨?_, fun f => ?_⟩
  · rw [Message.rest_put, Message.rest_put, h.1]
  · rw [Message.setting_put, Message.setting_put, h.2 f]

theorem putAll (h : a.Same b) (settings : List Setting) :
    Message.Same (Registers.putAll a settings) (Registers.putAll b settings) := by
  induction settings generalizing a b with
  | nil => exact h
  | cons s rest ih => exact ih (h.put s)

end Message.Same

namespace Op

/-- The operations an arrival performs. -/
def arrives : Op → Bool
  | .archive | .trash | .spam | .setRead _ | .setStar .starred | .label _ .in | .file _ => true
  | _ => false

/-- The labels an operation names. -/
def names : Op → List LabelId
  | .label held _ | .file held | .copy held => [held]
  | _ => []

variable {messages : List Message} {op : Op} {target : Target} {m : Message}

theorem halves_of_same (arrives : op.arrives = true) (thread other : Thread) {more : List Message}
    {a b : Message} (same : a.Same b) (ha : select target messages = [a])
    (hb : select target more = [b]) :
    op.halves target thread messages = op.halves target other more := by
  have hid := same.id_eq
  have hread := same.read_eq
  have hstar := same.star_eq
  have hflag := same.flag_eq
  have hmailbox := same.mailbox_eq
  have hlabel := same.contains_eq
  cases op with
  | archive | trash | spam =>
    simp only [halves, ha, hb, moveInto, Halves.forEach, List.flatMap_cons, List.flatMap_nil,
      hid, hmailbox]
  | setRead state =>
    simp only [halves, ha, hb, Domain.setRead, Halves.forEach, List.flatMap_cons,
      List.flatMap_nil, hid, hread]
  | setStar star =>
    simp only [halves, ha, hb, Domain.setStar, Halves.forEach, List.flatMap_cons,
      List.flatMap_nil, hid, hstar, hflag]
  | label l membership =>
    simp only [halves, ha, hb, setLabel, Halves.forEach, List.flatMap_cons, List.flatMap_nil,
      hid, hlabel]
  | file l =>
    simp only [halves, ha, hb, fileInto, moveInto, setLabel, Halves.forEach, List.flatMap_cons,
      List.flatMap_nil, hid, hmailbox, hlabel]
  | _ => cases arrives

theorem forward_of_one (arrives : op.arrives = true) (thread : Thread)
    (h : select target messages = [m]) :
    (op.halves target thread messages).1 = (op.writes m).map (Change.ofSetting m.id) := by
  cases op with
  | archive | trash | spam =>
    simp only [halves, h, moveInto, Halves.forEach, List.flatMap_cons, List.flatMap_nil,
      List.append_nil, writes]
    split <;> rfl
  | setRead state =>
    simp only [halves, h, Domain.setRead, Halves.forEach, List.flatMap_cons, List.flatMap_nil,
      List.append_nil, writes]
    split <;> rfl
  | setStar star =>
    simp only [halves, h, Domain.setStar, Halves.forEach, List.flatMap_cons, List.flatMap_nil,
      List.append_nil, writes, List.map_append]
    congr 1 <;> split <;> rfl
  | label l membership =>
    simp only [halves, h, setLabel, Halves.forEach, List.flatMap_cons, List.flatMap_nil,
      List.append_nil, writes]
    by_cases hmem : l ∈ m.labels <;> cases membership <;>
      simp [Message.membership, hmem, Change.ofSetting]
  | file l =>
    simp only [halves, h, fileInto, moveInto, setLabel, Halves.forEach, List.flatMap_cons,
      List.flatMap_nil, List.append_nil, writes, List.map_append]
    congr 1
    · split <;> rfl
    · by_cases hmem : l ∈ m.labels <;> simp [Message.membership, hmem, Change.ofSetting]
  | _ => cases arrives

theorem label_of_writes (arrives : op.arrives = true) {l : LabelId} {membership : Membership}
    (h : .label l membership ∈ op.writes m) :
    membership = .in ∧ l ∈ op.names := by
  cases op with
  | label held side =>
    cases side with
    | «in» =>
      simp only [writes] at h
      split at h
      · cases List.mem_singleton.mp h
        exact ⟨rfl, List.mem_singleton.mpr rfl⟩
      · exact absurd h List.not_mem_nil
    | out => cases arrives
  | file held =>
    simp only [writes, List.mem_append] at h
    rcases h with h | h
    · split at h
      · cases List.mem_singleton.mp h
      · exact absurd h List.not_mem_nil
    · split at h
      · cases List.mem_singleton.mp h
        exact ⟨rfl, List.mem_singleton.mpr rfl⟩
      · exact absurd h List.not_mem_nil
  | archive | trash | spam | setRead _ | setStar _ =>
    simp only [writes] at h
    grind
  | _ => cases arrives

end Op

end Mailo.Domain

namespace Mailo.Core

open Domain Logic Store Library

/-- A conversation in memory and the same one read from the store. -/
structure Alike (a b : ThreadView) : Prop where
  id : a.thread.summary.id = b.thread.summary.id
  mute : a.thread.summary.mute = b.thread.summary.mute
  messages : List.Forall₂ Message.Same a.messages b.messages

section Lists

variable {xs ys : List Message}

theorem find_alike (h : List.Forall₂ Message.Same xs ys) (id : MessageId) :
    Option.Rel Message.Same (xs.find? fun m => m.id = id) (ys.find? fun m => m.id = id) := by
  induction h with
  | nil => exact .none
  | @cons a b xs ys hab _ ih =>
    by_cases heq : a.id = id
    · have heq' : b.id = id := hab.id_eq ▸ heq
      simpa [heq, heq'] using hab
    · have heq' : ¬ b.id = id := hab.id_eq ▸ heq
      simpa [heq, heq'] using ih

theorem any_alike (h : List.Forall₂ Message.Same xs ys) (id : MessageId) :
    (xs.any fun m => m.id = id) = ys.any fun m => m.id = id := by
  induction h with
  | nil => rfl
  | cons hab _ ih => rw [List.any_cons, List.any_cons, ih, hab.id_eq]

theorem ids_alike (h : List.Forall₂ Message.Same xs ys) :
    xs.map Message.id = ys.map Message.id := by
  induction h with
  | nil => rfl
  | cons hab _ ih => rw [List.map_cons, List.map_cons, ih, hab.id_eq]

theorem first_alike (h : List.Forall₂ Message.Same xs ys) :
    xs.head?.map Message.account = ys.head?.map Message.account := by
  cases h with
  | nil => rfl
  | cons hone _ => exact congrArg some hone.account_eq

end Lists

section Views

variable {as bs : List ThreadView}

theorem Alike.holds {a b : ThreadView} (h : Alike a b) (id : MessageId) :
    a.holds id = b.holds id := any_alike h.messages id

theorem messages_alike (h : List.Forall₂ Alike as bs) :
    List.Forall₂ Message.Same (as.flatMap ThreadView.messages) (bs.flatMap ThreadView.messages) := by
  induction h with
  | nil => exact .nil
  | cons hab _ ih =>
    rw [List.flatMap_cons, List.flatMap_cons]
    exact List.rel_append hab.messages ih

theorem viewOf_alike (h : List.Forall₂ Alike as bs) (id : MessageId) :
    Option.Rel Alike (as.find? fun view => view.holds id) (bs.find? fun view => view.holds id) := by
  induction h with
  | nil => exact .none
  | @cons a b as bs hab _ ih =>
    cases hheld : b.holds id with
    | true =>
      have hheld' : a.holds id = true := (hab.holds id).trans hheld
      simpa [hheld, hheld'] using hab
    | false =>
      have hheld' : a.holds id = false := (hab.holds id).trans hheld
      simpa [hheld, hheld'] using ih

end Views

/-! ## What an operation on one message is written as -/

variable {m : Message} {caps : AccountCaps} {id : MessageId} {op : Op}

theorem select_one {messages : List Message} (distinct : (messages.map Message.id).Nodup)
    (hm : m ∈ messages) : select (.messages [m.id]) messages = [m] := by
  unfold select
  simp only [List.contains_cons, List.contains_nil, Bool.or_false]
  induction messages with
  | nil => exact absurd hm List.not_mem_nil
  | cons head rest ih =>
    rw [List.map_cons, List.nodup_cons] at distinct
    rcases List.mem_cons.mp hm with rfl | hrest
    · have hnone : (rest.filter fun other => other.id == m.id) = [] := by
        rw [List.filter_eq_nil_iff]
        intro other hother heq
        exact distinct.1 (eq_of_beq heq ▸ List.mem_map_of_mem (f := Message.id) hother)
      simp [hnone]
    · have hne : (head.id == m.id) = false := by
        rw [beq_eq_false_iff_ne]
        intro heq
        exact distinct.1 (heq ▸ List.mem_map_of_mem (f := Message.id) hrest)
      rw [List.filter_cons_of_neg (by simp [hne])]
      exact ih distinct.2 hrest

/-- What an arrival's operation on one message asks of the server. -/
inductive Carries (labels : List LabelId) (id : MessageId) : RemoteIntent → Prop where
  | mailbox (role : MailboxRole) : Carries labels id (.setMailbox [id] role)
  | read (state : ReadState) : Carries labels id (.setFlags [id] (some state) none)
  | star (star : Star) : Carries labels id (.setFlags [id] none (some star))
  | label (held : LabelId) (mem : held ∈ labels) : Carries labels id (.setLabels [id] [held] [])
  | file (held : LabelId) (mem : held ∈ labels) : Carries labels id (.file [id] held)

theorem carries_of_remoteIntent (arrives : op.arrives = true) {intent : RemoteIntent}
    (h : op.remoteIntent [id] caps = some intent) :
    Carries op.names id intent := by
  have hlocal : ∀ {wanted : RemoteIntent}, Op.unlessLocal caps.archive wanted = some intent →
      intent = wanted := by
    intro wanted hwanted
    unfold Op.unlessLocal at hwanted
    split at hwanted
    · cases hwanted
    all_goals exact (Option.some.inj hwanted).symm
  cases op with
  | archive | trash | spam =>
    rw [hlocal h]
    exact .mailbox _
  | setRead state =>
    cases h
    exact .read state
  | setStar star =>
    cases h
    exact .star star
  | label held membership =>
    cases membership with
    | «in» =>
      simp only [Op.remoteIntent] at h
      split at h
      · cases h
      all_goals
        cases h
        exact .label held (List.mem_singleton.mpr rfl)
    | out => cases arrives
  | file held =>
    rw [hlocal h]
    exact .file held (List.mem_singleton.mpr rfl)
  | _ => cases arrives

theorem touchedBy_ofSetting (id : MessageId) (settings : List Setting) :
    touchedBy (settings.map (Change.ofSetting id)) = if settings.isEmpty then [] else [id] := by
  have htouches : ∀ s : Setting, (Change.ofSetting id s).touches = some id := by
    intro s
    cases s <;> rfl
  induction settings using List.reverseRecOn with
  | nil => rfl
  | append_singleton rest s ih =>
    rw [List.map_append, touchedBy, List.foldl_append]
    change List.foldl _ (touchedBy (rest.map (Change.ofSetting id))) _ = _
    rw [ih, List.map_singleton, List.foldl_cons, List.foldl_nil, htouches]
    cases rest with
    | nil => rfl
    | cons first rest => simp

/-- A commit of an arrival's operation on one message. -/
structure Written (op : Op) (m : Message) (commit : Commit) : Prop where
  changes : commit.forward.changes = (op.writes m).map (Change.ofSetting m.id)
  rows : commit.rows = []
  one : commit.queue.length ≤ 1
  queue : ∀ work ∈ commit.queue, work.resolve = .afterForward ∧ work.unplaced = .skip ∧
    Carries op.names m.id work.intent

theorem applied_written (arrives : op.arrives = true) {view : ThreadView}
    (distinct : (view.messages.map Message.id).Nodup) (hm : m ∈ view.messages) (thread : ThreadId)
    (caps : AccountCaps) (hasServer : Bool) (now : DateTime) (forwardId inverseId : ChangeId) :
    ∃ commit, applied view ⟨thread, .messages [m.id], op⟩ caps hasServer now forwardId inverseId =
      some commit ∧ Written op m commit ∧ commit.now = now := by
  have hselect := select_one distinct hm
  have hforward := Op.forward_of_one arrives view.thread hselect
  obtain ⟨first, hfirst⟩ : ∃ first, view.messages.head? = some first :=
    Option.isSome_iff_exists.mp (List.isSome_head?.mpr (List.ne_nil_of_mem hm))
  refine ⟨_, by rw [applied, hfirst]; rfl, ⟨hforward, rfl, ?_, ?_⟩, rfl⟩
  · simp only [Applied.intoCommit, Option.length_toList]
    split <;> omega
  · intro work hwork
    simp only [Applied.intoCommit, Option.mem_toList, Option.map_eq_some_iff,
      Op.apply, Option.filter_eq_some_iff] at hwork
    obtain ⟨intent, ⟨hintent, -⟩, rfl⟩ := hwork
    rw [hforward, touchedBy_ofSetting] at hintent
    split at hintent
    · cases hintent
    · have hcarries := carries_of_remoteIntent arrives hintent
      refine ⟨?_, rfl, hcarries⟩
      cases hcarries <;> rfl

theorem applied_alike (arrives : op.arrives = true) {a b : ThreadView} (h : Alike a b)
    (distinct : (b.messages.map Message.id).Nodup) (held : b.holds id = true) {thread : ThreadId}
    {hasServer : Bool} {now : DateTime} {forwardId inverseId : ChangeId} :
    applied a ⟨thread, .messages [id], op⟩ caps hasServer now forwardId inverseId =
      applied b ⟨thread, .messages [id], op⟩ caps hasServer now forwardId inverseId := by
  have hids := ids_alike h.messages
  obtain ⟨y, hy, hid⟩ := List.any_eq_true.mp held
  have hid : y.id = id := by simpa using hid
  subst hid
  obtain ⟨x, hx, hsame⟩ : ∃ x ∈ a.messages, x.Same y := by
    have hfind := find_alike h.messages y.id
    have hyfind : (b.messages.find? fun m => m.id = y.id) = some y := by
      have hfilter : (b.messages.filter fun m => decide (m.id = y.id)) = [y] :=
        (List.filter_congr fun m _ => by simp).trans (select_one distinct hy)
      rw [← List.head?_filter, hfilter]
      rfl
    rw [hyfind] at hfind
    cases hxfind : a.messages.find? fun m => m.id = y.id with
    | none => rw [hxfind] at hfind; cases hfind
    | some x =>
      rw [hxfind] at hfind
      cases hfind with
      | some hsame => exact ⟨x, List.mem_of_find?_eq_some hxfind, hsame⟩
  have ha : select (.messages [y.id]) a.messages = [x] :=
    hsame.id_eq ▸ select_one (hids ▸ distinct) hx
  have hb := select_one distinct hy
  have hhalves := Op.halves_of_same arrives a.thread b.thread hsame ha hb
  have hfirst := first_alike h.messages
  simp only [applied, Op.apply, hhalves]
  cases ha' : a.messages.head? with
  | none =>
    rw [ha'] at hfirst
    cases hb' : b.messages.head? with
    | none => rfl
    | some first => rw [hb'] at hfirst; cases hfirst
  | some first =>
    rw [ha'] at hfirst
    cases hb' : b.messages.head? with
    | none => rw [hb'] at hfirst; cases hfirst
    | some other =>
      rw [hb'] at hfirst
      have haccount : first.account = other.account := Option.some.inj hfirst
      simp only [Option.map_some, haccount]

end Mailo.Core
