import Mailo.Runtime.Assemble
import Mathlib.Data.Nat.Pairing

/-!
# Threading batch after batch

What a batch does to a conversation depends on which ids of it are held. The partition is that of
one batch holding everything exactly when each batch finds what is held of its conversations by
the ids it names, and holds together what it begins.
-/

namespace Mailo.Domain.Threading

/-! ## What inputs name -/

/-- The keys a message is found by once it is held. -/
def ThreadInput.foundBy (input : ThreadInput) : List (List Char) :=
  (if input.ownId = [] then [] else [input.ownId]) ++ (input.providerId.map providerKey).toList

/-- A point some input names. -/
def Named (inputs : List ThreadInput) : Point → Prop
  | .input _ => True
  | .id id => id ≠ [] ∧ ∃ input ∈ inputs, id = input.ownId ∨ ∃ raw ∈ input.named, id = normalizeId raw
  | .provider id => id ≠ [] ∧ ∃ input ∈ inputs, input.provider = some id

variable {inputs : List ThreadInput}

variable {a b p : Point} {i j : Nat} {batch : List ThreadInput}

theorem named_of_joins (h : Joins inputs a b) :
    Named inputs a ∧ Named inputs b := by
  cases h with
  | reference hi hraw hne =>
    exact ⟨trivial, hne, _, List.mem_of_getElem? hi, Or.inr ⟨_, hraw, rfl⟩⟩
  | provider hi hid hne => exact ⟨trivial, hne, _, List.mem_of_getElem? hi, hid⟩
  | own hi hne _ => exact ⟨trivial, hne, _, List.mem_of_getElem? hi, Or.inl rfl⟩

theorem named_of_related (h : Related inputs a b) :
    Named inputs a ↔ Named inputs b := by
  induction h with
  | rel a b hjoins =>
    have hboth := named_of_joins hjoins
    exact ⟨fun _ => hboth.2, fun _ => hboth.1⟩
  | refl a => exact Iff.rfl
  | symm a b _ ih => exact ih.symm
  | trans a b c _ _ ih ih' => exact ih.trans ih'

theorem named_of_input (h : Related inputs (.input i) p) : Named inputs p :=
  (named_of_related h).mp trivial

def DistinctIds (inputs : List ThreadInput) : Prop :=
  ∀ i j : Fin inputs.length, inputs[i].ownId ≠ [] → inputs[i].ownId = inputs[j].ownId → i = j

def Point.move (place : Nat → Nat) : Point → Point
  | .input i => .input (place i)
  | p => p

theorem Point.move_ofKey (place : Nat → Nat) (key : List Char) :
    (Point.ofKey key).move place = Point.ofKey key := by
  unfold Point.ofKey
  split <;> rfl

theorem first_of_distinct (hd : DistinctIds inputs) {input : ThreadInput}
    (hi : inputs[i]? = some input) (hne : input.ownId ≠ []) :
    First inputs i input.ownId := by
  intro j hj other hother heq
  rcases List.getElem?_eq_some_iff.mp hi with ⟨hlt, hget⟩
  rcases List.getElem?_eq_some_iff.mp hother with ⟨hlt', hget'⟩
  have hsame := hd ⟨i, hlt⟩ ⟨j, hlt'⟩ (by simpa [hget] using hne) (by simp [hget, hget', heq])
  rw [Fin.mk.injEq] at hsame
  omega

/-- A batch is part of all inputs, from `start` on. -/
structure Part (all batch : List ThreadInput) (start : Nat) : Prop where
  get_eq : ∀ i input, batch[i]? = some input → all[start + i]? = some input

variable {all : List ThreadInput}

theorem Part.related {start : Nat} (h : Part all batch start) (hd : DistinctIds all) {q : Point}
    (hr : Related batch p q) :
    Related all (p.move (start + ·)) (q.move (start + ·)) := by
  induction hr with
  | rel p q hjoins =>
    apply Related.of_joins
    cases hjoins with
    | reference hi hraw hne => exact .reference (h.get_eq _ _ hi) hraw hne
    | provider hi hid hne => exact .provider (h.get_eq _ _ hi) hid hne
    | own hi hne _ =>
      have hall := h.get_eq _ _ hi
      exact .own hall hne (first_of_distinct hd hall hne)
  | refl p => exact .refl _ _
  | symm p q _ ih => exact ih.symm
  | trans p q r _ _ ih ih' => exact ih.trans ih'

theorem related_foundBy (hd : DistinctIds all) {input : ThreadInput} (hj : all[j]? = some input)
    {key : List Char} (hkey : key ∈ input.foundBy) :
    Related all (.input j) (Point.ofKey key) := by
  rcases List.mem_append.mp hkey with hown | hprovider
  · split at hown
    · cases hown
    · rename_i hne
      rw [List.mem_singleton.mp hown, ThreadInput.ofKey_ownId]
      exact .of_joins (.own hj hne (first_of_distinct hd hj hne))
  · cases hid : input.providerId with
    | none => simp [hid] at hprovider
    | some id =>
      rw [hid, Option.map_some, Option.toList_some, List.mem_singleton] at hprovider
      have hfilter := Option.filter_eq_some_iff.mp hid
      rw [hprovider, Point.ofKey_providerKey]
      exact .of_joins (.provider hj hfilter.1 (by simpa using hfilter.2))

/-- Input `i` of a batch is joined, within the batch, with what the `j`-th held is found by. -/
def Reaches (batch held : List ThreadInput) (i j : Nat) : Prop :=
  ∃ other, held[j]? = some other ∧
    ∃ key ∈ other.foundBy, Related batch (.input i) (Point.ofKey key)

theorem Reaches.related {held : List ThreadInput} (h : Reaches batch held i j)
    (hd : DistinctIds all) (hheld : Part all held 0) (hbatch : Part all batch held.length) :
    Related all (.input (held.length + i)) (.input j) := by
  rcases h with ⟨other, hother, key, hkey, hrelated⟩
  have hat := hheld.get_eq _ _ hother
  rw [Nat.zero_add] at hat
  have hmoved := hbatch.related hd hrelated
  rw [Point.move_ofKey] at hmoved
  exact hmoved.trans (related_foundBy hd hat hkey).symm

/-- A batch meets what is held: a message of a conversation partly held is joined, by what its
batch names, with something held of it; and what the batch holds of a conversation not held yet
is joined within the batch. -/
structure Timely (all held batch : List ThreadInput) : Prop where
  reaches : ∀ i j, i < batch.length → j < held.length →
    Related all (.input (held.length + i)) (.input j) → ∃ k, Reaches batch held i k
  together : ∀ i j, i < batch.length → j < batch.length →
    (∀ k, k < held.length → ¬ Related all (.input (held.length + i)) (.input k)) →
      Related all (.input (held.length + i)) (.input (held.length + j)) →
        Related batch (.input i) (.input j)

def AllTimely (all held : List ThreadInput) : List (List ThreadInput) → Prop
  | [] => True
  | batch :: rest => Timely all held batch ∧ AllTimely all (held ++ batch) rest

end Mailo.Domain.Threading

namespace Mailo.Runtime

open Domain Domain.Threading Library

/-! ## The index says what is held -/

/-- A message as threading reads it, with the thread id its server gave its address. -/
def Shelf.inputOf (shelf : Shelf) (item : Gather) : ThreadInput :=
  item.input (item.remote.bind shelf.providerThreadOf)

/-- The messages held, in the order they were written. -/
structure Shelved (shelf : Shelf) (items : List Gather) : Prop where
  length : shelf.messages.length = items.length
  row : ∀ (j : Nat) (item : Gather), items[j]? = some item →
    ∃ tid, shelf.messages[j]? = some (Filed.mk item.parsed.rfcMessageId tid item.remote)

def Shelf.threadAt (shelf : Shelf) (j : Nat) : Option ThreadId :=
  (shelf.messages[j]?).map Filed.thread

theorem mem_rfcIdsAsked {batch : List Parsed} {id : List Char} : id ∈ rfcIdsAsked batch ↔
    id ≠ [] ∧ ∃ parsed ∈ batch, ∃ raw ∈ parsed.rfcMessageId.toList ++ parsed.inReplyTo.toList ++
      parsed.references, id = normalizeId raw := by
  have hraws : ∀ (raws ids : List (List Char)), id ∈ raws.foldl (fun ids raw =>
      let id := normalizeId raw
      if !id.isEmpty && !ids.contains id then ids ++ [id] else ids) ids ↔
        id ∈ ids ∨ (id ≠ [] ∧ ∃ raw ∈ raws, id = normalizeId raw) := by
    intro raws
    induction raws with
    | nil => intro ids; simp
    | cons raw raws ih =>
      intro ids
      rw [List.foldl_cons, ih]
      have hone : id ∈ (if !(normalizeId raw).isEmpty && !ids.contains (normalizeId raw) then
          ids ++ [normalizeId raw] else ids) ↔
            id ∈ ids ∨ (id ≠ [] ∧ id = normalizeId raw) := by
        split
        · rename_i hnew
          rw [List.mem_append, List.mem_singleton]
          constructor
          · rintro (h | rfl)
            · exact Or.inl h
            · refine Or.inr ⟨?_, rfl⟩
              simp at hnew
              exact hnew.1
          · rintro (h | ⟨_, h⟩)
            · exact Or.inl h
            · exact Or.inr h
        · rename_i hold
          constructor
          · exact Or.inl
          · rintro (h | ⟨hne, rfl⟩)
            · exact h
            · by_contra hnot
              simp [hne, hnot] at hold
      rw [hone]
      simp only [List.mem_cons, exists_eq_or_imp]
      rw [or_assoc, ← and_or_left]
  have hbatch : ∀ (batch : List Parsed) (ids : List (List Char)), id ∈ batch.foldl
      (fun ids parsed => (parsed.rfcMessageId.toList ++ parsed.inReplyTo.toList ++
        parsed.references).foldl (fun ids raw =>
          let id := normalizeId raw
          if !id.isEmpty && !ids.contains id then ids ++ [id] else ids) ids) ids ↔
        id ∈ ids ∨ (id ≠ [] ∧ ∃ parsed ∈ batch, ∃ raw ∈ parsed.rfcMessageId.toList ++
          parsed.inReplyTo.toList ++ parsed.references, id = normalizeId raw) := by
    intro batch
    induction batch with
    | nil => intro ids; simp
    | cons parsed batch ih =>
      intro ids
      rw [List.foldl_cons, ih, hraws]
      simp only [List.mem_cons, exists_eq_or_imp]
      rw [or_assoc, ← and_or_left]
  rw [rfcIdsAsked, hbatch]
  simp

section Answers

variable [LimitOne]

theorem inputs_eq (shelf : Shelf) (batch : List Gather) :
    (batch.map fun item => item.input (item.remote.bind
      (threadIndex shelf batch).providerOf.get)) = batch.map shelf.inputOf := by
  apply List.map_congr_left
  intro item hitem
  unfold Shelf.inputOf
  cases hremote : item.remote with
  | none => rfl
  | some remote =>
    have hasked : remote ∈ batch.filterMap Gather.remote :=
      List.mem_filterMap.mpr ⟨item, hitem, hremote⟩
    show item.input ((threadIndex shelf batch).providerOf.get remote) = _
    unfold threadIndex
    rw [get_answers, if_pos hasked]
    rfl

variable {items : List Gather} {item : Gather} {i j : Nat}

variable {shelf : Shelf}

omit [LimitOne] in
theorem row_of_filed (h : Shelved shelf items) {filed : Filed} (hfiled : filed ∈ shelf.messages) :
    ∃ (j : Nat) (item : Gather), items[j]? = some item ∧ shelf.threadAt j = some filed.thread ∧
      filed.rfcMessageId = item.parsed.rfcMessageId ∧ filed.remote = item.remote := by
  rcases List.getElem?_of_mem hfiled with ⟨j, hj⟩
  have hlt : j < items.length := by
    rw [← h.length]
    exact (List.getElem?_eq_some_iff.mp hj).1
  have hitem : items[j]? = some items[j] := List.getElem?_eq_getElem hlt
  rcases h.row j _ hitem with ⟨tid, hrow⟩
  rw [hj, Option.some.injEq] at hrow
  refine ⟨j, _, hitem, ?_, ?_, ?_⟩
  · unfold Shelf.threadAt
    rw [hj]
    rfl
  · rw [hrow]
  · rw [hrow]

omit [LimitOne] in
theorem ownId_none (h : item.parsed.rfcMessageId = none) :
    (shelf.inputOf item).ownId = [] := by
  unfold Shelf.inputOf Gather.input
  rw [h]
  rfl

omit [LimitOne] in
theorem ownId_some {raw : List Char} (h : item.parsed.rfcMessageId = some raw) :
    (shelf.inputOf item).ownId = normalizeId raw := by
  unfold Shelf.inputOf Gather.input
  rw [h]
  rfl

omit [LimitOne] in
theorem foundBy_id {id : List Char} (h : item.parsed.rfcMessageId = some id) :
    (shelf.inputOf item).ownId = id ∧ id ∈ (shelf.inputOf item).foundBy := by
  have hnormal := item.parsed.normalized id h
  have hown : (shelf.inputOf item).ownId = id := by rw [ownId_some h, hnormal.1]
  refine ⟨hown, List.mem_append_left _ ?_⟩
  rw [hown, if_neg hnormal.2, List.mem_singleton]

omit [LimitOne] in
theorem foundBy_provider {thrid : List Char} (hne : thrid ≠ [])
    (h : item.remote.bind shelf.providerThreadOf = some thrid) :
    providerKey thrid ∈ (shelf.inputOf item).foundBy := by
  apply List.mem_append_right
  have hid : (shelf.inputOf item).providerId = some thrid := by
    refine Option.filter_eq_some_iff.mpr ⟨h, ?_⟩
    simpa using hne
  rw [hid]
  simp

theorem known_eq (shelf : Shelf) (batch : List Gather) (key : List Char) :
    (threadIndex shelf batch).known key =
      match Text.stripPrefix providerPrefix key with
      | some thrid =>
        if ∃ remote ∈ batch.filterMap Gather.remote, shelf.providerThreadOf remote = some thrid
        then shelf.threadByProviderThread thrid
        else none
      | none =>
        if key ∈ rfcIdsAsked (batch.map Gather.parsed) then shelf.threadByRfcId key else none := by
  unfold ThreadIndex.known threadIndex
  cases Text.stripPrefix providerPrefix key with
  | some thrid =>
    dsimp only
    rw [get_answers]
    simp only [List.mem_eraseDups, mem_values_answers]
  | none =>
    dsimp only
    rw [get_answers]
    congr

variable {batch : List Gather}

/-- A thread known for a message of the batch is that of a held message its class reaches. -/
theorem known_reaches (h : Shelved shelf items) {tid : ThreadId}
    (hknows : Knows (batch.map shelf.inputOf) (threadIndex shelf batch).known i tid) :
    ∃ j, shelf.threadAt j = some tid ∧
      Reaches (batch.map shelf.inputOf) (items.map shelf.inputOf) i j := by
  rcases hknows with ⟨key, hne, hknown, hrelated⟩
  rw [known_eq] at hknown
  split at hknown
  · rename_i thrid hstrip
    rw [stripPrefix_eq_some hstrip] at hrelated
    change Related _ _ (Point.ofKey (providerKey thrid)) at hrelated
    split at hknown
    · have hmem := LimitOne.pick_mem hknown
      rcases List.mem_map.mp hmem with ⟨filed, hfiled, hthread⟩
      rw [List.mem_filter, decide_eq_true_eq] at hfiled
      rcases row_of_filed h hfiled.1 with ⟨j, item, hitem, hat, _, hremote⟩
      have hprovider : item.remote.bind shelf.providerThreadOf = some thrid := by
        rw [← hremote]
        exact hfiled.2
      have hnamed := named_of_input hrelated
      rw [Point.ofKey_providerKey] at hnamed
      rw [hthread] at hat
      refine ⟨j, hat, shelf.inputOf item, ?_, providerKey thrid,
        foundBy_provider hnamed.1 hprovider, hrelated⟩
      rw [List.getElem?_map, hitem]
      rfl
    · cases hknown
  · split at hknown
    · have hmem := LimitOne.pick_mem hknown
      rcases List.mem_map.mp hmem with ⟨filed, hfiled, hthread⟩
      rw [List.mem_filter, decide_eq_true_eq] at hfiled
      rcases row_of_filed h hfiled.1 with ⟨j, item, hitem, hat, hid, _⟩
      rw [hfiled.2] at hid
      rw [hthread] at hat
      refine ⟨j, hat, shelf.inputOf item, ?_, key, (foundBy_id hid.symm).2, hrelated⟩
      rw [List.getElem?_map, hitem]
      rfl
    · cases hknown

theorem reaches_known (h : Shelved shelf items)
    (hreaches : Reaches (batch.map shelf.inputOf) (items.map shelf.inputOf) i j) :
    ∃ tid, Knows (batch.map shelf.inputOf) (threadIndex shelf batch).known i tid := by
  rcases hreaches with ⟨other, hother, key, hkey, hrelated⟩
  rw [List.getElem?_map, Option.map_eq_some_iff] at hother
  rcases hother with ⟨item, hitem, rfl⟩
  rcases h.row j item hitem with ⟨tid, hrow⟩
  have hnamed := named_of_input hrelated
  have hpicks : ∀ (matching : Filed → Bool),
      matching ⟨item.parsed.rfcMessageId, tid, item.remote⟩ = true →
        ∃ found, LimitOne.pick ((shelf.messages.filter matching).map Filed.thread) = some found := by
    intro matching hmatching
    have hmem : tid ∈ (shelf.messages.filter matching).map Filed.thread :=
      List.mem_map.mpr ⟨_, List.mem_filter.mpr ⟨List.mem_of_getElem? hrow, hmatching⟩, rfl⟩
    exact Option.ne_none_iff_exists'.mp (LimitOne.pick_some (List.ne_nil_of_mem hmem))
  rcases List.mem_append.mp hkey with hown | hprovider
  · split at hown
    · cases hown
    · rename_i hne
      rw [List.mem_singleton] at hown
      subst hown
      cases hid : item.parsed.rfcMessageId with
      | none =>
        exact absurd (ownId_none hid) hne
      | some id =>
        have hownId : (shelf.inputOf item).ownId = id := (foundBy_id hid).1
        rw [ThreadInput.ofKey_ownId, hownId] at hnamed
        rw [hownId] at hrelated
        rcases hpicks (fun filed => filed.rfcMessageId = some id) (by simp [hid]) with
          ⟨found, hfound⟩
        refine ⟨found, id, hnamed.1, ?_, hrelated⟩
        have hstrip : Text.stripPrefix providerPrefix id = none := by
          rw [← (item.parsed.normalized id hid).1]
          exact stripPrefix_normalizeId id
        rw [known_eq, hstrip]
        rw [if_pos]
        · exact hfound
        · rcases hnamed with ⟨hidne, input, hinput, hnames⟩
          rcases List.mem_map.mp hinput with ⟨asking, hasking, rfl⟩
          refine mem_rfcIdsAsked.mpr ⟨hidne, asking.parsed, List.mem_map_of_mem hasking, ?_⟩
          rcases hnames with hsame | ⟨raw, hraw, hsame⟩
          · cases hrfc : asking.parsed.rfcMessageId with
            | none =>
              rw [ownId_none hrfc] at hsame
              exact absurd hsame hidne
            | some raw =>
              refine ⟨raw, by simp, ?_⟩
              rw [hsame, ownId_some hrfc]
          · refine ⟨raw, ?_, hsame⟩
            rcases List.mem_append.mp hraw with hreference | hreply
            · exact List.mem_append_right _ hreference
            · exact List.mem_append_left _ (List.mem_append_right _ hreply)
  · cases hid : (shelf.inputOf item).providerId with
    | none => simp [hid] at hprovider
    | some thrid =>
      rw [hid, Option.map_some, Option.toList_some, List.mem_singleton] at hprovider
      subst hprovider
      have hheld : item.remote.bind shelf.providerThreadOf = some thrid :=
        (Option.filter_eq_some_iff.mp hid).1
      rcases hpicks (fun filed => shelf.providerOf filed = some thrid)
        (decide_eq_true hheld) with ⟨found, hfound⟩
      refine ⟨found, providerKey thrid, by simp [providerKey, providerPrefix], ?_, hrelated⟩
      rw [Point.ofKey_providerKey] at hnamed
      rw [known_eq, providerKey, Text.stripPrefix_append]
      dsimp only
      rw [if_pos]
      · exact hfound
      · rcases hnamed with ⟨_, input, hinput, hgiven⟩
        rcases List.mem_map.mp hinput with ⟨asking, hasking, rfl⟩
        rcases Option.bind_eq_some_iff.mp hgiven with ⟨remote, hremote, hthrid⟩
        exact ⟨remote, List.mem_filterMap.mpr ⟨asking, hasking, hremote⟩, hthrid⟩

def threadsFor (shelf : Shelf) (fresh : Nat → ThreadId) (batch : List Gather) : List ThreadId :=
  threadWith (batch.map shelf.inputOf) (threadIndex shelf batch).known fresh

theorem assemble_messages (shelf : Shelf) (fresh : Nat → ThreadId) (batch : List Gather) :
    (assemble shelf fresh batch).messages = shelf.messages ++
      (batch.zip (threadsFor shelf fresh batch)).map fun row =>
        ⟨row.1.parsed.rfcMessageId, row.2, row.1.remote⟩ := by
  unfold assemble threadsFor
  rw [← inputs_eq]

theorem length_threadsFor (shelf : Shelf) (fresh : Nat → ThreadId) (batch : List Gather) :
    (threadsFor shelf fresh batch).length = batch.length := by
  rw [threadsFor, length_threadWith, List.length_map]

theorem assemble_shelved (h : Shelved shelf items) (fresh : Nat → ThreadId) (batch : List Gather) :
    Shelved (assemble shelf fresh batch) (items ++ batch) where
  length := by
    rw [assemble_messages, List.length_append, List.length_map, List.length_zip,
      length_threadsFor, Nat.min_self, h.length, List.length_append]
  row j item hitem := by
    rw [assemble_messages]
    rw [List.getElem?_append] at hitem ⊢
    rw [h.length]
    split
    · rename_i hlt
      rw [if_pos hlt] at hitem
      exact h.row j item hitem
    · rename_i hge
      rw [if_neg hge] at hitem
      have hlt : j - items.length < (threadsFor shelf fresh batch).length := by
        rw [length_threadsFor]
        exact (List.getElem?_eq_some_iff.mp hitem).1
      have hthread : (threadsFor shelf fresh batch)[j - items.length]? =
          some (threadsFor shelf fresh batch)[j - items.length] := List.getElem?_eq_getElem hlt
      have hzip : (batch.zip (threadsFor shelf fresh batch))[j - items.length]? =
          some (item, (threadsFor shelf fresh batch)[j - items.length]) :=
        List.getElem?_zip_eq_some.mpr ⟨hitem, hthread⟩
      refine ⟨(threadsFor shelf fresh batch)[j - items.length], ?_⟩
      rw [List.getElem?_map, hzip]
      rfl

theorem threadAt_held (h : Shelved shelf items) (fresh : Nat → ThreadId) (batch : List Gather)
    (hj : j < items.length) :
    (assemble shelf fresh batch).threadAt j = shelf.threadAt j := by
  unfold Shelf.threadAt
  rw [assemble_messages, List.getElem?_append_left (by rw [h.length]; exact hj)]

theorem threadAt_new (h : Shelved shelf items) (fresh : Nat → ThreadId) (batch : List Gather)
    (hi : i < batch.length) :
    (assemble shelf fresh batch).threadAt (items.length + i) =
      (threadsFor shelf fresh batch)[i]? := by
  unfold Shelf.threadAt
  rw [assemble_messages, List.getElem?_append_right (by rw [h.length]; omega), h.length,
    Nat.add_sub_cancel_left, List.getElem?_map]
  have hlt : i < (threadsFor shelf fresh batch).length := by
    rw [length_threadsFor]
    exact hi
  have hitem : batch[i]? = some batch[i] := List.getElem?_eq_getElem hi
  have hthread := List.getElem?_eq_getElem hlt
  have hzip : (batch.zip (threadsFor shelf fresh batch))[i]? =
      some (batch[i], (threadsFor shelf fresh batch)[i]) :=
    List.getElem?_zip_eq_some.mpr ⟨hitem, hthread⟩
  rw [hzip, hthread]
  rfl

/-! ## What holds between batches -/

/-- Every thread held was made for a batch before the `n`-th. -/
def Issued (fresh : Nat → Nat → ThreadId) (n : Nat) (shelf : Shelf) : Prop :=
  ∀ j tid, shelf.threadAt j = some tid → ∃ b k, b < n ∧ tid = fresh b k

/-- Two of the first `count` messages share a thread exactly when they are of one conversation. -/
def Agrees (all : List ThreadInput) (count : Nat) (shelf : Shelf) : Prop :=
  ∀ i j, i < count → j < count →
    (shelf.threadAt i = shelf.threadAt j ↔ Related all (.input i) (.input j))

/-- A batch on its way: what is held, what comes, and all of it. -/
structure Passing (all : List ThreadInput) (fresh : Nat → Nat → ThreadId) (n : Nat)
    (shelf : Shelf) (items batch : List Gather) : Prop where
  shelved : Shelved shelf items
  issued : Issued fresh n shelf
  distinct : DistinctIds all
  held : Part all (items.map shelf.inputOf) 0
  part : Part all (batch.map shelf.inputOf) items.length
  lone : ∀ base o, ¬ LoneReply (batch.map shelf.inputOf) base o

section Passing

variable {all : List ThreadInput} {fresh : Nat → Nat → ThreadId} {n : Nat} {shelf : Shelf}
  {items batch : List Gather}

variable {i j : Nat}

omit [LimitOne] in
theorem Passing.related (h : Passing all fresh n shelf items batch)
    (hreaches : Reaches (batch.map shelf.inputOf) (items.map shelf.inputOf) i j) :
    Related all (.input (items.length + i)) (.input j) := by
  have hpart : Part all (batch.map shelf.inputOf) (items.map shelf.inputOf).length := by
    rw [List.length_map]
    exact h.part
  have hrelated := hreaches.related h.distinct h.held hpart
  rwa [List.length_map] at hrelated

omit [LimitOne] in
theorem reaches_lt (hreaches : Reaches (batch.map shelf.inputOf) (items.map shelf.inputOf) i j) :
    j < items.length := by
  rcases hreaches with ⟨other, hother, _⟩
  have hlt := (List.getElem?_eq_some_iff.mp hother).1
  rwa [List.length_map] at hlt

/-- What a message of a batch is given: the thread of something held its class reaches, or, where
it reaches nothing, a thread made now. -/
theorem Passing.given (h : Passing all fresh n shelf items batch) (hi : i < batch.length) :
    ∃ tid, (threadsFor shelf (fresh n) batch)[i]? = some tid ∧
      ((∃ j, shelf.threadAt j = some tid ∧
        Reaches (batch.map shelf.inputOf) (items.map shelf.inputOf) i j) ∨
      ((∀ j, ¬ Reaches (batch.map shelf.inputOf) (items.map shelf.inputOf) i j) ∧
        ∃ k, tid = fresh n k)) := by
  rcases threadWith_nth h.lone (threadIndex shelf batch).known (fresh n)
    (by rw [List.length_map]; exact hi) with ⟨tid, htid, hfrom⟩
  refine ⟨tid, htid, ?_⟩
  rcases hfrom with hlowest | ⟨hnone, hmade⟩
  · exact Or.inl (known_reaches h.shelved hlowest.1)
  · refine Or.inr ⟨fun j hreaches => ?_, hmade⟩
    rcases reaches_known h.shelved hreaches with ⟨other, hother⟩
    exact hnone other hother

omit [LimitOne] in
theorem Passing.unmade (h : Passing all fresh n shelf items batch)
    (hfresh : ∀ a b c d, fresh a b = fresh c d → a = c ∧ b = d) {k : Nat} :
    shelf.threadAt j ≠ some (fresh n k) := by
  intro hat
  rcases h.issued j _ hat with ⟨b, m, hb, heq⟩
  have hsame := (hfresh _ _ _ _ heq).1
  omega

/-- Two messages of a batch that reach nothing share a thread when they are joined within it. -/
theorem Passing.together (h : Passing all fresh n shelf items batch)
    (hfresh : ∀ a b c d, fresh a b = fresh c d → a = c ∧ b = d) (hi : i < batch.length)
    (hj : j < batch.length)
    (hnone : ∀ k, ¬ Reaches (batch.map shelf.inputOf) (items.map shelf.inputOf) i k) :
    (threadsFor shelf (fresh n) batch)[i]? = (threadsFor shelf (fresh n) batch)[j]? ↔
      Related (batch.map shelf.inputOf) (.input i) (.input j) := by
  have hinj : Function.Injective (fresh n) := fun a b hab => (hfresh _ _ _ _ hab).2
  have hnew : ∀ k id, (threadIndex shelf batch).known id ≠ some (fresh n k) := by
    intro k id hknown
    rw [known_eq] at hknown
    have hheld : ∀ rows : List Filed, rows ⊆ shelf.messages →
        LimitOne.pick (rows.map Filed.thread) ≠ some (fresh n k) := by
      intro rows hrows hpick
      rcases List.mem_map.mp (LimitOne.pick_mem hpick) with ⟨filed, hfiled, hthread⟩
      rcases row_of_filed h.shelved (hrows hfiled) with ⟨m, _, _, hat, _⟩
      rw [hthread] at hat
      exact h.unmade hfresh hat
    split at hknown
    · split at hknown
      · exact hheld _ (List.filter_subset_self _) hknown
      · cases hknown
    · split at hknown
      · exact hheld _ (List.filter_subset_self _) hknown
      · cases hknown
  have hsame := threadWith_same h.lone hinj hnew (i := i) (j := j)
    (by rw [List.length_map]; exact hi) (by rw [List.length_map]; exact hj)
  refine hsame.trans ⟨?_, Or.inl⟩
  rintro (hrelated | ⟨tid, hlowest, _⟩)
  · exact hrelated
  · rcases known_reaches h.shelved hlowest.1 with ⟨k, _, hreaches⟩
    exact absurd hreaches (hnone k)

/-- A timely batch keeps the threads those of the conversations. -/
theorem Passing.agrees (h : Passing all fresh n shelf items batch)
    (hfresh : ∀ a b c d, fresh a b = fresh c d → a = c ∧ b = d)
    (hagrees : Agrees all items.length shelf)
    (htimely : Timely all (items.map shelf.inputOf) (batch.map shelf.inputOf)) :
    Agrees all (items.length + batch.length) (assemble shelf (fresh n) batch) := by
  have hreaches : ∀ i j, i < batch.length → j < items.length →
      Related all (.input (items.length + i)) (.input j) →
        ∃ k, Reaches (batch.map shelf.inputOf) (items.map shelf.inputOf) i k := by
    intro i j hi hj hrelated
    have htold := htimely.reaches i j
    simp only [List.length_map] at htold
    exact htold hi hj hrelated
  -- A message's class reaches something held exactly when its conversation is held in part.
  have hnew : ∀ i j, i < batch.length → j < items.length →
      ((threadsFor shelf (fresh n) batch)[i]? = shelf.threadAt j ↔
        Related all (.input (items.length + i)) (.input j)) := by
    intro i j hi hj
    rcases h.given hi with ⟨tid, htid, ⟨k, hat, hclass⟩ | ⟨hnone, k, hmade⟩⟩
    · have hk := reaches_lt hclass
      have hrelated := h.related hclass
      rw [htid, ← hat, hagrees k j hk hj]
      exact ⟨fun hkj => hrelated.trans hkj, fun hij => hrelated.symm.trans hij⟩
    · constructor
      · intro heq
        rw [htid, hmade] at heq
        exact absurd heq.symm (h.unmade hfresh)
      · intro hrelated
        rcases hreaches i j hi hj hrelated with ⟨m, hclass⟩
        exact absurd hclass (hnone m)
  have hboth : ∀ i j, i < batch.length → j < batch.length →
      ((threadsFor shelf (fresh n) batch)[i]? = (threadsFor shelf (fresh n) batch)[j]? ↔
        Related all (.input (items.length + i)) (.input (items.length + j))) := by
    intro i j hi hj
    rcases h.given hi with ⟨tid, htid, ⟨k, hat, hclass⟩ | ⟨hnone, _⟩⟩
    · have hk := reaches_lt hclass
      have hrelated := h.related hclass
      rw [htid, ← hat, eq_comm, hnew j k hj hk]
      exact ⟨fun hjk => hrelated.trans hjk.symm, fun hij => hij.symm.trans hrelated⟩
    · rw [h.together hfresh hi hj hnone]
      constructor
      · intro hclass
        exact h.part.related h.distinct hclass
      · intro hrelated
        have htold := htimely.together i j
        simp only [List.length_map] at htold
        refine htold hi hj (fun k hk hheld => ?_) hrelated
        rcases hreaches i k hi hk hheld with ⟨m, hclass⟩
        exact hnone m hclass
  have hcases : ∀ i, i < items.length + batch.length →
      i < items.length ∨ ∃ k, k < batch.length ∧ i = items.length + k := by
    intro i hi
    by_cases hlt : i < items.length
    · exact Or.inl hlt
    · exact Or.inr ⟨i - items.length, by omega, by omega⟩
  intro i j hi hj
  rcases hcases i hi with hold | ⟨i, hmore, rfl⟩
  · rw [threadAt_held h.shelved _ _ hold]
    rcases hcases j hj with hold' | ⟨j, hmore', rfl⟩
    · rw [threadAt_held h.shelved _ _ hold']
      exact hagrees i j hold hold'
    · rw [threadAt_new h.shelved _ _ hmore', eq_comm, hnew j i hmore' hold]
      exact ⟨Related.symm, Related.symm⟩
  · rw [threadAt_new h.shelved _ _ hmore]
    rcases hcases j hj with hold' | ⟨j, hmore', rfl⟩
    · rw [threadAt_held h.shelved _ _ hold']
      exact hnew i j hmore hold'
    · rw [threadAt_new h.shelved _ _ hmore']
      exact hboth i j hmore hmore'

/-- Where the threads are those of the conversations after a batch, it was timely. -/
theorem Passing.timely (h : Passing all fresh n shelf items batch)
    (hfresh : ∀ a b c d, fresh a b = fresh c d → a = c ∧ b = d)
    (hagrees : Agrees all (items.length + batch.length) (assemble shelf (fresh n) batch)) :
    Timely all (items.map shelf.inputOf) (batch.map shelf.inputOf) where
  reaches i j hi hj hrelated := by
    simp only [List.length_map] at hi hj hrelated
    have hsame := (hagrees (items.length + i) j (by omega) (by omega)).mpr hrelated
    rw [threadAt_new h.shelved _ _ hi, threadAt_held h.shelved _ _ hj] at hsame
    rcases h.given hi with ⟨tid, htid, ⟨k, _, hclass⟩ | ⟨_, k, hmade⟩⟩
    · exact ⟨k, hclass⟩
    · rw [htid, hmade] at hsame
      exact absurd hsame.symm (h.unmade hfresh)
  together i j hi hj hnone hrelated := by
    simp only [List.length_map] at hi hj hnone hrelated
    have hsame := (hagrees (items.length + i) (items.length + j) (by omega) (by omega)).mpr hrelated
    rw [threadAt_new h.shelved _ _ hi, threadAt_new h.shelved _ _ hj] at hsame
    refine (h.together hfresh hi hj fun k hclass => ?_).mp hsame
    exact hnone k (reaches_lt hclass) (h.related hclass)

theorem Passing.issued_after (h : Passing all fresh n shelf items batch) :
    Issued fresh (n + 1) (assemble shelf (fresh n) batch) := by
  intro j tid hat
  have hlength := (assemble_shelved h.shelved (fresh n) batch).length
  have hj : j < items.length + batch.length := by
    unfold Shelf.threadAt at hat
    rcases Option.map_eq_some_iff.mp hat with ⟨filed, hfiled, _⟩
    have hlt := (List.getElem?_eq_some_iff.mp hfiled).1
    rw [hlength, List.length_append] at hlt
    exact hlt
  have hearlier : ∀ k, shelf.threadAt k = some tid → ∃ b m, b < n + 1 ∧ tid = fresh b m := by
    intro k hk
    rcases h.issued k tid hk with ⟨b, m, hb, heq⟩
    exact ⟨b, m, by omega, heq⟩
  by_cases hlt : j < items.length
  · rw [threadAt_held h.shelved _ _ hlt] at hat
    exact hearlier j hat
  · have hsplit : j = items.length + (j - items.length) := by omega
    have hi : j - items.length < batch.length := by omega
    rw [hsplit, threadAt_new h.shelved _ _ hi] at hat
    rcases h.given hi with ⟨given, hgiven, ⟨k, hk, _⟩ | ⟨_, k, hmade⟩⟩
    · rw [hgiven, Option.some.injEq] at hat
      rw [hat] at hk
      exact hearlier k hk
    · rw [hgiven, Option.some.injEq] at hat
      exact ⟨n, k, by omega, by rw [← hat, hmade]⟩

end Passing

/-! ## Batch after batch -/

theorem threadAt_kept {fresh : Nat → Nat → ThreadId} {batches : List (List Gather)} {n : Nat}
    (h : Shelved shelf items) (hj : j < items.length) :
    (assembleAll fresh n shelf batches).threadAt j = shelf.threadAt j := by
  induction batches generalizing n shelf items with
  | nil => rfl
  | cons batch rest ih =>
    unfold assembleAll
    rw [ih (assemble_shelved h (fresh n) batch) (by rw [List.length_append]; omega),
      threadAt_held h _ _ hj]

theorem assembleAll_agrees_iff {fresh : Nat → Nat → ThreadId}
    (hfresh : ∀ a b c d, fresh a b = fresh c d → a = c ∧ b = d) {all : List Gather}
    {batches : List (List Gather)} {n : Nat} {shelf : Shelf} {items : List Gather}
    (hall : all = items ++ batches.flatten) (hshelved : Shelved shelf items)
    (hissued : Issued fresh n shelf) (hdistinct : DistinctIds (all.map shelf.inputOf))
    (hlone : ∀ batch ∈ batches, ∀ base o, ¬ LoneReply (batch.map shelf.inputOf) base o)
    (hagrees : Agrees (all.map shelf.inputOf) items.length shelf) :
    Agrees (all.map shelf.inputOf) all.length (assembleAll fresh n shelf batches) ↔
      AllTimely (all.map shelf.inputOf) (items.map shelf.inputOf)
        (batches.map (List.map shelf.inputOf)) := by
  induction batches generalizing n shelf items with
  | nil =>
    rw [List.flatten_nil, List.append_nil] at hall
    rw [hall] at hagrees ⊢
    exact ⟨fun _ => trivial, fun _ => hagrees⟩
  | cons batch rest ih =>
    rw [List.flatten_cons] at hall
    obtain ⟨hfirst, hlater⟩ := List.forall_mem_cons.mp hlone
    have hpassing : Passing (all.map shelf.inputOf) fresh n shelf items batch := by
      refine ⟨hshelved, hissued, hdistinct, ⟨fun i input hinput => ?_⟩,
        ⟨fun i input hinput => ?_⟩, hfirst⟩
      · have hlt := (List.getElem?_eq_some_iff.mp hinput).1
        rw [List.length_map] at hlt
        rw [List.getElem?_map] at hinput ⊢
        rw [Nat.zero_add, hall, List.getElem?_append_left hlt]
        exact hinput
      · have hlt := (List.getElem?_eq_some_iff.mp hinput).1
        rw [List.length_map] at hlt
        rw [List.getElem?_map] at hinput ⊢
        rw [hall, List.getElem?_append_right (by omega), Nat.add_sub_cancel_left,
          List.getElem?_append_left hlt]
        exact hinput
    have hnext := assemble_shelved hshelved (fresh n) batch
    have hrest : all = (items ++ batch) ++ rest.flatten := by
      rw [hall, List.append_assoc]
    have hstep : Agrees (all.map shelf.inputOf) (items.length + batch.length)
        (assemble shelf (fresh n) batch) →
        (Agrees (all.map shelf.inputOf) all.length
          (assembleAll fresh (n + 1) (assemble shelf (fresh n) batch) rest) ↔
        AllTimely (all.map shelf.inputOf) ((items ++ batch).map shelf.inputOf)
          (rest.map (List.map shelf.inputOf))) := by
      intro hafter
      rw [← List.length_append] at hafter
      exact @ih _ (assemble shelf (fresh n) batch) _ hrest hnext hpassing.issued_after
        hdistinct hlater hafter
    rw [List.map_cons]
    unfold assembleAll AllTimely
    constructor
    · intro hfinal
      have hafter : Agrees (all.map shelf.inputOf) (items.length + batch.length)
          (assemble shelf (fresh n) batch) := by
        intro i j hi hj
        have hcount : items.length + batch.length ≤ all.length := by
          rw [hrest, List.length_append, List.length_append]
          omega
        have hsame := hfinal i j (by omega) (by omega)
        rw [threadAt_kept hnext (by rw [List.length_append]; exact hi),
          threadAt_kept hnext (by rw [List.length_append]; exact hj)] at hsame
        exact hsame
      refine ⟨hpassing.timely hfresh hafter, ?_⟩
      rw [← List.map_append]
      exact (hstep hafter).mp hfinal
    · rintro ⟨htimely, hlater⟩
      rw [← List.map_append] at hlater
      exact (hstep (hpassing.agrees hfresh hagrees htimely)).mpr hlater

/-- An account that holds nothing, with the thread ids its server gave the addresses to come. -/
def Shelf.empty (providerThread : RemoteRef → Option (List Char)) : Shelf := ⟨[], providerThread⟩

omit [LimitOne] in
theorem distinct_of_nodup {all : List Gather}
    (h : (all.filterMap fun item => item.parsed.rfcMessageId).Nodup) :
    DistinctIds (all.map shelf.inputOf) := by
  have hpairs := List.pairwise_filterMap.mp h
  rw [List.pairwise_iff_getElem] at hpairs
  have hid : ∀ item : Gather, (shelf.inputOf item).ownId ≠ [] →
      item.parsed.rfcMessageId = some (shelf.inputOf item).ownId := by
    intro item hne
    cases hrfc : item.parsed.rfcMessageId with
    | none => exact absurd (ownId_none hrfc) hne
    | some id => rw [(foundBy_id hrfc).1]
  intro i j hne heq
  have hi : i.val < all.length := i.isLt.trans_eq (List.length_map _)
  have hj : j.val < all.length := j.isLt.trans_eq (List.length_map _)
  simp only [Fin.getElem_fin, List.getElem_map] at hne heq
  have hidi := hid _ hne
  have hidj := hid all[j.val] (by rw [← heq]; exact hne)
  rw [← heq] at hidj
  apply Fin.ext
  by_contra hdiffers
  rcases Nat.lt_or_gt_of_ne hdiffers with hlt | hlt
  · exact hpairs i.val j.val hi hj hlt _ hidi _ hidj rfl
  · exact hpairs j.val i.val hj hi hlt _ hidj _ hidi rfl

/-- Where no batch, nor all of them in one, holds a lone reply for the subject fallback to file, two
messages share a thread batch after batch exactly when one batch of them all would have them share
one, if and only if every batch finds what is held of its conversations and holds together what it
begins. -/
theorem threads_of_batches_iff (providerThread : RemoteRef → Option (List Char))
    (fresh : Nat → Nat → ThreadId) (batches : List (List Gather))
    (hfresh : ∀ a b c d, fresh a b = fresh c d → a = c ∧ b = d)
    (hids : (batches.flatten.filterMap fun item => item.parsed.rfcMessageId).Nodup)
    (hlone : ∀ batch ∈ batches.flatten :: batches, ∀ base o,
      ¬ LoneReply (batch.map (Shelf.empty providerThread).inputOf) base o) :
    (∀ i j, i < batches.flatten.length → j < batches.flatten.length →
      ((assembleAll fresh 0 (.empty providerThread) batches).threadAt i =
          (assembleAll fresh 0 (.empty providerThread) batches).threadAt j ↔
        (assembleAll fresh 0 (.empty providerThread) [batches.flatten]).threadAt i =
          (assembleAll fresh 0 (.empty providerThread) [batches.flatten]).threadAt j)) ↔
    AllTimely (batches.flatten.map (Shelf.empty providerThread).inputOf) []
      (batches.map (List.map (Shelf.empty providerThread).inputOf)) := by
  have hshelved : Shelved (.empty providerThread) [] := ⟨rfl, fun j item hitem => by cases hitem⟩
  have hissued : Issued fresh 0 (.empty providerThread) := by
    intro j tid hat
    cases hat
  have hdistinct : DistinctIds (batches.flatten.map (Shelf.empty providerThread).inputOf) :=
    distinct_of_nodup hids
  have hagrees : Agrees (batches.flatten.map (Shelf.empty providerThread).inputOf)
      ([] : List Gather).length (.empty providerThread) := by
    intro i j hi
    cases hi
  have hbatches := @assembleAll_agrees_iff _ fresh hfresh batches.flatten batches 0
    (.empty providerThread) [] (by rw [List.nil_append]) hshelved hissued hdistinct
    (fun batch hbatch => hlone batch (.tail _ hbatch)) hagrees
  have hwhole := (@assembleAll_agrees_iff _ fresh hfresh batches.flatten [batches.flatten] 0
    (.empty providerThread) [] (by simp) hshelved hissued hdistinct
    (fun batch hbatch => hlone batch (List.mem_singleton.mp hbatch ▸ .head _)) hagrees).mpr (by
      refine ⟨⟨fun i j _ hj => absurd hj (Nat.not_lt_zero j), fun i j _ _ _ hrelated => ?_⟩,
        trivial⟩
      simpa using hrelated)
  rw [List.map_nil] at hbatches
  refine Iff.trans ⟨fun h i j hi hj => ?_, fun h i j hi hj => ?_⟩ hbatches
  · exact (h i j hi hj).trans (hwhole i j hi hj)
  · exact (h i j hi hj).trans (hwhole i j hi hj).symm

end Answers

section Examples

/-- Rows in the order they were written. -/
local instance firstWritten : LimitOne where
  pick := List.head?
  pick_mem h := List.mem_of_mem_head? h
  pick_some h hnone := h (List.head?_eq_none_iff.mp hnone)

/-- A message with an id, answering another where it names one. -/
def letter (id : List Char) (h : normalizeId id = id ∧ id ≠ []) (parent : Option (List Char))
    (subject : List Char) : Gather :=
  ⟨none, ⟨some id, parent, [], subject, fun other hother => by
    cases hother
    exact h⟩⟩

def parent : Gather := letter "a@x".toList (by decide) none "Lunch".toList

def reply : Gather := letter "b@x".toList (by decide) (some "a@x".toList) "Re: Lunch".toList

def unprovided : RemoteRef → Option (List Char) := fun _ => none

def made (batch k : Nat) : ThreadId := ⟨Nat.pair batch k⟩

theorem made_injective (a b c d : Nat) (h : made a b = made c d) : a = c ∧ b = d :=
  Nat.pair_eq_pair.mp (ThreadId.mk.inj h)

theorem no_lone_lunch (batch : List Gather) (h : ∀ item ∈ batch, item ∈ [parent, reply])
    (base : List Char) (o : Nat) :
    ¬ LoneReply (batch.map (Shelf.empty unprovided).inputOf) base o := by
  have hlunch : ∀ item ∈ [parent, reply],
      ((Shelf.empty unprovided).inputOf item).chainIds = [] →
        (baseSubject ((Shelf.empty unprovided).inputOf item).subject).1 = [] ∨
          (baseSubject ((Shelf.empty unprovided).inputOf item).subject).2 = false := by
    decide +kernel
  refine no_lone_of_forall (fun input hinput => ?_) base o
  obtain ⟨item, hitem, rfl⟩ := List.mem_map.mp hinput
  exact hlunch item (h item hitem)

/-- A reply in a later batch than its parent. -/
theorem threads_of_batches_reply :
    (∀ i j, i < 2 → j < 2 →
      ((assembleAll made 0 (.empty unprovided) [[parent], [reply]]).threadAt i =
          (assembleAll made 0 (.empty unprovided) [[parent], [reply]]).threadAt j ↔
        (assembleAll made 0 (.empty unprovided) [[parent, reply]]).threadAt i =
          (assembleAll made 0 (.empty unprovided) [[parent, reply]]).threadAt j)) ↔
    AllTimely ([parent, reply].map (Shelf.empty unprovided).inputOf) []
      ([[parent], [reply]].map (List.map (Shelf.empty unprovided).inputOf)) :=
  threads_of_batches_iff unprovided made [[parent], [reply]] made_injective (by decide)
    (fun batch hbatch => no_lone_lunch batch (by revert batch; decide))

/-- A parent in a later batch than its reply is not joined to it. -/
theorem parent_after_reply : ¬ ∀ (batches : List (List Gather)),
    (batches.flatten.filterMap fun item => item.parsed.rfcMessageId).Nodup →
    (∀ batch ∈ batches.flatten :: batches, ∀ base o,
      ¬ LoneReply (batch.map (Shelf.empty unprovided).inputOf) base o) →
    ∀ i j, i < batches.flatten.length → j < batches.flatten.length →
      ((assembleAll made 0 (.empty unprovided) batches).threadAt i =
          (assembleAll made 0 (.empty unprovided) batches).threadAt j ↔
        (assembleAll made 0 (.empty unprovided) [batches.flatten]).threadAt i =
          (assembleAll made 0 (.empty unprovided) [batches.flatten]).threadAt j) := by
  intro h
  have hsame := h [[reply], [parent]] (by decide)
    (fun batch hbatch => no_lone_lunch batch (by revert batch; decide)) 0 1 (by decide) (by decide)
  have happart : (assembleAll made 0 (.empty unprovided) [[reply], [parent]]).threadAt 0 ≠
      (assembleAll made 0 (.empty unprovided) [[reply], [parent]]).threadAt 1 := by
    decide +kernel
  have htogether : (assembleAll made 0 (.empty unprovided) [[reply, parent]]).threadAt 0 =
      (assembleAll made 0 (.empty unprovided) [[reply, parent]]).threadAt 1 := by
    decide +kernel
  exact happart (hsame.mpr htogether)

end Examples

end Mailo.Runtime
