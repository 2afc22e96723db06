import Mailo.Domain.Threading.Arena

/-!
# A thread is a class of the references

The points threading relates are the inputs, the ids they name and the servers' groupings. While
the inputs are read, two containers are in one class exactly when the points they stand for are
joined by what has been read, whatever links the forest took or refused.
-/

namespace Mailo.Domain.Threading

open Library Library.ParentForest

inductive Point where
  | input (i : Nat)
  | id (id : List Char)
  | provider (id : List Char)
deriving DecidableEq

/-- What the container of a key stands for. -/
def Point.ofKey (key : List Char) : Point :=
  match Text.stripPrefix providerPrefix key with
  | some group => .provider group
  | none => .id key

theorem Point.ofKey_inj {a b : List Char} (h : Point.ofKey a = Point.ofKey b) : a = b := by
  unfold Point.ofKey at h
  cases ha : Text.stripPrefix providerPrefix a with
  | none =>
    cases hb : Text.stripPrefix providerPrefix b with
    | none => simpa [ha, hb] using h
    | some group => simp [ha, hb] at h
  | some group =>
    cases hb : Text.stripPrefix providerPrefix b with
    | none => simp [ha, hb] at h
    | some other =>
      simp only [ha, hb, Point.provider.injEq] at h
      rw [stripPrefix_eq_some ha, stripPrefix_eq_some hb, h]

theorem Point.ofKey_ne_input (key : List Char) (i : Nat) : Point.ofKey key ≠ .input i := by
  unfold Point.ofKey
  split <;> simp

theorem Point.ofKey_normalizeId (raw : List Char) :
    Point.ofKey (normalizeId raw) = .id (normalizeId raw) := by
  rw [Point.ofKey, stripPrefix_normalizeId]

theorem Point.ofKey_providerKey (group : List Char) :
    Point.ofKey (providerKey group) = .provider group := by
  rw [Point.ofKey, providerKey, Text.stripPrefix_append]

theorem ThreadInput.ofKey_ownId (input : ThreadInput) :
    Point.ofKey input.ownId = .id input.ownId := by
  unfold ThreadInput.ownId
  cases input.messageId with
  | none => rfl
  | some raw => exact Point.ofKey_normalizeId raw

/-- No earlier input has this one's id. -/
def First (inputs : List ThreadInput) (i : Nat) (id : List Char) : Prop :=
  ∀ j, j < i → ∀ other, inputs[j]? = some other → other.ownId ≠ id

/-- An input is joined with every usable id it names, with its server's grouping, and, when it is
the first with its own id, with that. -/
inductive Joins (inputs : List ThreadInput) : Point → Point → Prop
  | reference {i : Nat} {input : ThreadInput} {raw : List Char} :
      inputs[i]? = some input → raw ∈ input.named → normalizeId raw ≠ [] →
      Joins inputs (.input i) (.id (normalizeId raw))
  | provider {i : Nat} {input : ThreadInput} {id : List Char} :
      inputs[i]? = some input → input.provider = some id → id ≠ [] →
      Joins inputs (.input i) (.provider id)
  | own {i : Nat} {input : ThreadInput} :
      inputs[i]? = some input → input.ownId ≠ [] → First inputs i input.ownId →
      Joins inputs (.input i) (.id input.ownId)

/-- The smallest equivalence with all these joins. -/
def Related (inputs : List ThreadInput) : Point → Point → Prop := Relation.EqvGen (Joins inputs)

namespace Related

variable {inputs : List ThreadInput} {a b c : Point}

theorem refl (inputs : List ThreadInput) (a : Point) : Related inputs a a :=
  Relation.EqvGen.refl a

theorem symm (h : Related inputs a b) : Related inputs b a := Relation.EqvGen.symm _ _ h

theorem trans (h : Related inputs a b) (k : Related inputs b c) : Related inputs a c :=
  Relation.EqvGen.trans _ _ _ h k

theorem of_joins (h : Joins inputs a b) : Related inputs a b :=
  Relation.EqvGen.rel _ _ h

end Related

open Classical in
noncomputable def homePoint (inputs : List ThreadInput) (i : Nat) (input : ThreadInput) : Point :=
  if input.ownId ≠ [] ∧ First inputs i input.ownId then .id input.ownId else .input i

variable {input : ThreadInput} {key : List Char}

variable {inputs : List ThreadInput}

variable {i n : Nat} {forest : Forest} {seating : Seating}

theorem related_homePoint (h : inputs[i]? = some input) :
    Related inputs (.input i) (homePoint inputs i input) := by
  unfold homePoint
  split
  · rename_i hown
    exact .of_joins (.own h hown.1 hown.2)
  · exact .refl inputs _

/-- The keys whose containers reading an input joins with its own. -/
def ThreadInput.keys (input : ThreadInput) : List (List Char) :=
  input.chainIds ++ (input.providerId.map providerKey).toList

theorem joins_of_key (h : inputs[i]? = some input) (hkey : key ∈ input.keys) :
    Joins inputs (.input i) (Point.ofKey key) := by
  rcases List.mem_append.mp hkey with hchain | hprovider
  · rcases mem_chainIds.mp hchain with ⟨hne, raw, hraw, heq⟩
    rw [← heq, Point.ofKey_normalizeId]
    exact .reference h hraw (by rw [heq]; exact hne)
  · cases hid : input.providerId with
    | none => simp [hid] at hprovider
    | some id =>
      simp only [hid, Option.map_some, Option.toList_some, List.mem_singleton] at hprovider
      have hfilter := Option.filter_eq_some_iff.mp hid
      rw [hprovider, Point.ofKey_providerKey]
      exact .provider h hfilter.1 (by simpa using hfilter.2)

theorem key_of_joins {a b : Point} (h : Joins inputs a b) :
    ∃ i input, inputs[i]? = some input ∧ a = .input i ∧
      ((∃ key ∈ input.keys, b = Point.ofKey key) ∨ b = homePoint inputs i input) := by
  cases h with
  | @reference i input raw hi hraw hne =>
    refine ⟨i, input, hi, rfl, Or.inl ⟨normalizeId raw, ?_, (Point.ofKey_normalizeId raw).symm⟩⟩
    exact List.mem_append_left _ (mem_chainIds.mpr ⟨hne, raw, hraw, rfl⟩)
  | @provider i input id hi hid hne =>
    refine ⟨i, input, hi, rfl, Or.inl ⟨providerKey id, ?_, (Point.ofKey_providerKey id).symm⟩⟩
    have hsome : input.providerId = some id :=
      Option.filter_eq_some_iff.mpr ⟨hid, by simpa using hne⟩
    refine List.mem_append_right _ ?_
    rw [hsome]
    simp
  | @own i input hi hne hfirst =>
    refine ⟨i, input, hi, rfl, Or.inr ?_⟩
    rw [homePoint, if_pos ⟨hne, hfirst⟩]

/-! ## The point of a container -/

namespace Forest

/-- What a container stands for: its key, or, without one, the input it was made for. -/
def point (forest : Forest) (n : Nat) : Point :=
  if (forest.node n).id = [] then .input ((forest.node n).msg.getD 0)
  else Point.ofKey (forest.node n).id

variable {after : Forest}

variable {before : Forest} {chain : List Nat} {here : Nat}

theorem Kept.point_eq (h : Kept before after) (n : Nat) :
    after.point n = before.point n := by
  rw [point, point, h.id_eq, h.msg_eq]

def Truthful (related : Point → Point → Prop) (forest : Forest) : Prop :=
  ∀ a b, a < forest.size → b < forest.size → forest.classes.Same a b →
    related (forest.point a) (forest.point b)

variable {forest : Forest} {inputs : List ThreadInput}

theorem Truthful.of_grown (h : Truthful (Related inputs) forest) (hsound : Sound forest)
    (hg : Grown forest after) (hpoint : ∀ n, n < forest.size → after.point n = forest.point n) :
    Truthful (Related inputs) after := by
  intro a b ha hb hs
  have hold := (hg.same_iff a b).mp hs
  by_cases hao : a < forest.size
  · by_cases hbo : b < forest.size
    · rw [hpoint a hao, hpoint b hbo]
      exact h a b hao hbo hold
    · have heq := hsound.eq_of_same (by omega) hold.symm
      omega
  · have heq := hsound.eq_of_same (by omega) hold
    rw [heq]
    exact .refl inputs _

theorem Truthful.of_joined {p c : Nat} (h : Truthful (Related inputs) forest)
    (hk : Kept forest after) (hp : p < forest.size) (hc : c < forest.size)
    (hsame : ∀ x y, after.classes.Same x y → forest.classes.Same x y ∨
      (forest.classes.Same x p ∧ forest.classes.Same c y) ∨
      (forest.classes.Same x c ∧ forest.classes.Same p y))
    (hpc : Related inputs (forest.point p) (forest.point c)) :
    Truthful (Related inputs) after := by
  intro a b ha hb hs
  rw [hk.size_eq] at ha hb
  rw [hk.point_eq, hk.point_eq]
  rcases hsame a b hs with hab | ⟨hap, hcb⟩ | ⟨hac, hpb⟩
  · exact h a b ha hb hab
  · exact ((h a p ha hp hap).trans hpc).trans (h c b hc hb hcb)
  · exact ((h a c ha hc hac).trans hpc.symm).trans (h p b hp hb hpb)

theorem Interned.point_eq (h : Interned before after) {n : Nat} (hn : n < before.size) :
    after.point n = before.point n := by
  rw [point, point, h.id_eq n hn, h.msg_eq]

theorem linkPairs_spec {pairs : List (Nat × Nat)} (h : Sound forest)
    (hlt : ∀ pair ∈ pairs, pair.1 < forest.size ∧ pair.2 < forest.size)
    (hrel : ∀ pair ∈ pairs, Related inputs (forest.point pair.1) (forest.point pair.2))
    (htrue : Truthful (Related inputs) forest) :
    let after := pairs.foldl (fun forest pair => forest.linkFree pair.1 pair.2) forest
    Sound after ∧ Kept forest after ∧ after.parentOf = adoptPairs forest.parentOf pairs ∧
      Truthful (Related inputs) after := by
  induction pairs generalizing forest with
  | nil => exact ⟨h, Kept.refl forest, rfl, htrue⟩
  | cons pair pairs ih =>
    have hpair := hlt pair (.head _)
    rcases linkFree_spec h hpair.1 hpair.2 with ⟨hsound, hkept, hparent, hsame⟩
    have hjoined := htrue.of_joined hkept hpair.1 hpair.2 hsame (hrel pair (.head _))
    have hrest := ih hsound
      (fun p hp => by
        rw [hkept.size_eq]
        exact hlt p (.tail _ hp))
      (fun p hp => by
        rw [hkept.point_eq, hkept.point_eq]
        exact hrel p (.tail _ hp)) hjoined
    refine ⟨hrest.1, hkept.trans hrest.2.1, ?_, hrest.2.2.2⟩
    rw [List.foldl_cons, hrest.2.2.1, hparent]
    rfl

theorem linkChain_spec (h : Sound forest) (hchain : ∀ c ∈ chain, c < forest.size)
    (hhere : here < forest.size)
    (hrel : ∀ c ∈ chain, Related inputs (forest.point here) (forest.point c))
    (htrue : Truthful (Related inputs) forest) :
    Sound (Seating.linkChain forest chain here) ∧
      Kept forest (Seating.linkChain forest chain here) ∧
      (Seating.linkChain forest chain here).parentOf = adoptChain forest.parentOf chain here ∧
      Truthful (Related inputs) (Seating.linkChain forest chain here) := by
  have hmem : ∀ pair ∈ chain.zip chain.tail, pair.1 ∈ chain ∧ pair.2 ∈ chain := fun pair hp =>
    ⟨(List.of_mem_zip hp).1, List.mem_of_mem_tail (List.of_mem_zip hp).2⟩
  have hpairs := linkPairs_spec h
    (fun pair hp => ⟨hchain _ (hmem pair hp).1, hchain _ (hmem pair hp).2⟩)
    (fun pair hp => (hrel _ (hmem pair hp).1).symm.trans (hrel _ (hmem pair hp).2)) htrue
  unfold Seating.linkChain adoptChain
  cases hlast : chain.getLast? with
  | none => exact hpairs
  | some last =>
    have hl := List.mem_of_getLast? hlast
    rcases hpairs with ⟨hsound, hkept, hparent, htruth⟩
    have hp := hchain last hl
    rw [← hkept.size_eq] at hp hhere
    rcases link_spec hsound hp hhere with ⟨hsound', hkept', hparent', hsame⟩
    refine ⟨hsound', hkept.trans hkept', ?_, htruth.of_joined hkept' hp hhere hsame ?_⟩
    · rw [hparent', hparent]
    · rw [hkept.point_eq, hkept.point_eq]
      exact (hrel last hl).symm

theorem mergeChain_spec (h : Sound forest) (hchain : ∀ c ∈ chain, c < forest.size)
    (hhere : here < forest.size)
    (hrel : ∀ c ∈ chain, Related inputs (forest.point here) (forest.point c))
    (htrue : Truthful (Related inputs) forest) :
    let after := chain.foldl (fun forest c => forest.merge here c) forest
    Sound after ∧ Kept forest after ∧ after.parentOf = forest.parentOf ∧
      Truthful (Related inputs) after ∧ ∀ c ∈ chain, after.classes.Same here c := by
  induction chain generalizing forest with
  | nil => exact ⟨h, Kept.refl forest, rfl, htrue, fun c hc => by cases hc⟩
  | cons c chain ih =>
    have hc := hchain c (.head _)
    rcases merge_spec h hhere hc with ⟨hsound, hkept, hsame⟩
    have hjoined := htrue.of_joined hkept hhere hc (fun x y => same_of_merge h hhere hc)
      (hrel c (.head _))
    have hrest := ih hsound
      (fun d hd => by
        rw [hkept.size_eq]
        exact hchain d (.tail _ hd))
      (by rw [hkept.size_eq]; exact hhere)
      (fun d hd => by
        rw [hkept.point_eq, hkept.point_eq]
        exact hrel d (.tail _ hd)) hjoined
    refine ⟨hrest.1, hkept.trans hrest.2.1, hrest.2.2.1, hrest.2.2.2.1, fun d hd => ?_⟩
    rcases List.mem_cons.mp hd with heq | hd
    · rw [heq]
      exact hrest.2.1.same_of here c hsame
    · exact hrest.2.2.2.2 d hd

end Forest

/-! ## Reading an input -/

/-- The arena after `before`: containers added and links and classes joined, none reseated. -/
structure Later (before after : Forest) : Prop where
  size_le : before.size ≤ after.size
  id_eq : ∀ n, n < before.size → (after.node n).id = (before.node n).id
  msg_eq : ∀ n, (after.node n).msg = (before.node n).msg
  keyed : ∀ n, before.size ≤ n → n < after.size → (after.node n).id ≠ []
  table_of : ∀ id n, before.table.get id = some n → after.table.get id = some n
  same_of : ∀ a b, before.classes.Same a b → after.classes.Same a b

namespace Later

variable {after before : Forest}

theorem of_interned (h : Forest.Interned before after) :
    Later before after :=
  ⟨h.size_le, h.id_eq, h.msg_eq, h.keyed, h.table_of, fun a b => (h.same_iff a b).mpr⟩

theorem of_kept (h : Forest.Kept before after) : Later before after :=
  ⟨Nat.le_of_eq h.size_eq.symm, fun n _ => h.id_eq n, h.msg_eq,
    fun n hn hlt => by rw [h.size_eq] at hlt; omega,
    fun id n hn => by rw [h.table_eq]; exact hn, h.same_of⟩

theorem trans {a b c : Forest} (h : Later a b) (k : Later b c) : Later a c where
  size_le := Nat.le_trans h.size_le k.size_le
  id_eq n hn := (k.id_eq n (Nat.lt_of_lt_of_le hn h.size_le)).trans (h.id_eq n hn)
  msg_eq n := (k.msg_eq n).trans (h.msg_eq n)
  keyed n hn hlt := by
    by_cases hb : n < b.size
    · rw [k.id_eq n hb]
      exact h.keyed n hn hb
    · exact k.keyed n (by omega) hlt
  table_of id n hn := k.table_of id n (h.table_of id n hn)
  same_of x y hxy := k.same_of x y (h.same_of x y hxy)

theorem point_eq (h : Later before after) {n : Nat} (hn : n < before.size) :
    after.point n = before.point n := by
  rw [Forest.point, Forest.point, h.id_eq n hn, h.msg_eq]

end Later

theorem joinProvider_spec {forest : Forest} {inputs : List ThreadInput} {input : ThreadInput}
    {here : Nat} (h : forest.Sound) (hhere : here < forest.size)
    (hrel : ∀ id, input.providerId = some id →
      Related inputs (forest.point here) (Point.ofKey (providerKey id)))
    (htrue : Forest.Truthful (Related inputs) forest) :
    (Seating.joinProvider forest input here).Sound ∧
      Later forest (Seating.joinProvider forest input here) ∧
      (Seating.joinProvider forest input here).parentOf = forest.parentOf ∧
      Forest.Truthful (Related inputs) (Seating.joinProvider forest input here) ∧
      ∀ id, input.providerId = some id → ∃ m,
        (Seating.joinProvider forest input here).table.get (providerKey id) = some m ∧
        (Seating.joinProvider forest input here).classes.Same here m := by
  unfold Seating.joinProvider
  cases hid : input.providerId with
  | none =>
    exact ⟨h, .of_kept (Forest.Kept.refl forest), rfl, htrue, fun id hsome => by cases hsome⟩
  | some id =>
    have hne : providerKey id ≠ [] := by simp [providerKey, providerPrefix]
    rcases Forest.intern_spec h hne with ⟨hsound, hin, htable⟩
    have hkey := (hsound.table_iff _ _).mp htable
    have hhere' := Nat.lt_of_lt_of_le hhere hin.size_le
    rcases Forest.merge_spec hsound hhere' hkey.1 with ⟨hsound', hkept, hsame⟩
    have htruth := htrue.of_grown h hin.toGrown fun n hn => hin.point_eq hn
    have hpoint : (forest.intern (providerKey id)).1.point (forest.intern (providerKey id)).2 =
        Point.ofKey (providerKey id) := by
      rw [Forest.point, if_neg (by rw [hkey.2.1]; exact hne), hkey.2.1]
    refine ⟨hsound', (Later.of_interned hin).trans (.of_kept hkept), hin.parent_eq,
      htruth.of_joined hkept hhere' hkey.1 (fun x y => Forest.same_of_merge hsound hhere' hkey.1)
        ?_, fun other hother => ?_⟩
    · rw [hpoint, hin.point_eq hhere]
      exact hrel id hid
    · rw [Option.some.injEq] at hother
      subst hother
      exact ⟨_, htable, hsame⟩

/-- What holds after the first inputs have been read. -/
structure Reading (inputs : List ThreadInput) (seating : Seating) : Prop where
  sound : seating.forest.Sound
  rootless_eq : seating.rootless =
    (inputs.take seating.home.length).map fun input => input.chainIds.isEmpty
  home_iff : ∀ (i n : Nat), seating.home[i]? = some n ↔ (seating.forest.node n).msg = some i
  home_point : ∀ (i n : Nat) input, seating.home[i]? = some n → inputs[i]? = some input →
    seating.forest.point n = homePoint inputs i input
  alone : ∀ n, n < seating.forest.size → (seating.forest.node n).id = [] →
    (seating.forest.node n).msg ≠ none
  truthful : Forest.Truthful (Related inputs) seating.forest
  complete : ∀ (i n : Nat) input key, seating.home[i]? = some n → inputs[i]? = some input →
    key ∈ input.keys → ∃ m, seating.forest.table.get key = some m ∧
      seating.forest.classes.Same n m

/-- What reading one input does to the links, and where its containers stand. -/
structure ReadOne (inputs : List ThreadInput) (before after : Seating) (input : ThreadInput)
    (chain : List Nat) (here : Nat) : Prop where
  home_eq : after.home = before.home ++ [here]
  size_le : before.forest.size ≤ after.forest.size
  point_eq : ∀ n, n < before.forest.size → after.forest.point n = before.forest.point n
  parent_eq : after.forest.parentOf = adoptChain before.forest.parentOf chain here
  chain_lt : ∀ c ∈ chain, c < after.forest.size
  chain_point : chain.map after.forest.point = input.chainIds.map Point.id
  here_lt : here < after.forest.size
  here_point : after.forest.point here = homePoint inputs before.home.length input

theorem exists_first {id : List Char} {k j : Nat} {other : ThreadInput} (hj : j < k)
    (hother : inputs[j]? = some other) (hid : other.ownId = id) :
    ∃ i input, i < k ∧ inputs[i]? = some input ∧ input.ownId = id ∧ First inputs i id := by
  induction j using Nat.strong_induction_on generalizing other with
  | h j ih =>
    by_cases hfirst : First inputs j id
    · exact ⟨j, other, hj, hother, hid, hfirst⟩
    · simp only [First, not_forall, not_not] at hfirst
      rcases hfirst with ⟨l, hl, earlier, hearlier, heq⟩
      exact ih l hl (by omega) hearlier heq

theorem point_of_table (h : forest.Sound) (htable : forest.table.get key = some n) :
    forest.point n = Point.ofKey key := by
  have hkey := (h.table_iff key n).mp htable
  rw [Forest.point, if_neg (by rw [hkey.2.1]; exact hkey.2.2), hkey.2.1]

theorem id_of_point (h : forest.point n = Point.ofKey key) :
    (forest.node n).id = key := by
  unfold Forest.point at h
  split at h
  · exact absurd h.symm (Point.ofKey_ne_input key _)
  · exact Point.ofKey_inj h

theorem seat_point {after : Forest} {here : Nat} (h : Reading inputs seating)
    (hin : inputs[seating.home.length]? = some input)
    (hs : Forest.Seats seating.forest after input.ownId seating.home.length here) :
    after.point here = homePoint inputs seating.home.length input := by
  have hlen : seating.home.length < inputs.length := (List.getElem?_eq_some_iff.mp hin).1
  rcases hs.place with ⟨hid, hne, hfree⟩ | ⟨hid, htaken⟩
  · have hfirst : First inputs seating.home.length input.ownId := by
      intro j hj other hother heq
      rcases exists_first hj hother heq with ⟨i, early, hi, hearly, hown, hfirst⟩
      have hseat : seating.home[i]? = some seating.home[i] := List.getElem?_eq_getElem hi
      have hpoint := h.home_point i _ early hseat hearly
      rw [homePoint, if_pos ⟨by rw [hown]; exact hne, by rw [hown]; exact hfirst⟩,
        ← ThreadInput.ofKey_ownId, hown] at hpoint
      have hmsg := (h.home_iff i _).mp hseat
      have htable : seating.forest.table.get input.ownId = some seating.home[i] :=
        (h.sound.table_iff _ _).mpr ⟨Forest.lt_of_msg hmsg, id_of_point hpoint, hne⟩
      rw [hfree _ htable, hs.free] at hmsg
      cases hmsg
    rw [Forest.point, if_neg (by rw [hid]; exact hne), hid, ThreadInput.ofKey_ownId, homePoint,
      if_pos ⟨hne, hfirst⟩]
  · have hnot : ¬ (input.ownId ≠ [] ∧ First inputs seating.home.length input.ownId) := by
      intro hboth
      rcases htaken with hnil | ⟨n, j, htable, hmsg⟩
      · exact hboth.1 hnil
      · have hseat := (h.home_iff j n).mpr hmsg
        have hj : j < seating.home.length := (List.getElem?_eq_some_iff.mp hseat).1
        have hother : inputs[j]? = some inputs[j] := List.getElem?_eq_getElem (by omega)
        have hpoint := h.home_point j n _ hseat hother
        rw [point_of_table h.sound htable, homePoint] at hpoint
        split at hpoint
        · rw [← ThreadInput.ofKey_ownId] at hpoint
          exact hboth.2 j hj _ hother (Point.ofKey_inj hpoint).symm
        · exact Point.ofKey_ne_input _ _ hpoint
    rw [homePoint, if_neg hnot, Forest.point, if_pos hid, hs.msg, if_pos rfl]
    rfl

theorem Reading.empty (inputs : List ThreadInput) : Reading inputs Seating.empty where
  sound := Forest.Sound.empty
  rootless_eq := rfl
  home_iff i n := by
    show (none : Option Nat) = some n ↔ none = some i
    simp
  home_point i n input h := by cases h
  alone n h := absurd h (Nat.not_lt_zero n)
  truthful a b h := absurd h (Nat.not_lt_zero a)
  complete i n input key h := by cases h

/-- What is done with an input once it has a seat, and the containers of its chain. -/
def Seating.join (seated : Forest) (input : ThreadInput) (here : Nat) : Forest × List Nat :=
  let (named, chain) := seated.chain input
  let linked := Seating.linkChain named chain here
  (Seating.joinProvider (chain.foldl (fun forest c => forest.merge here c) linked) input here,
    chain)

/-- The chain is interned, linked and joined, and so is the provider's thread. -/
structure Joined (inputs : List ThreadInput) (input : ThreadInput) (seated after : Forest)
    (chain : List Nat) (here : Nat) : Prop where
  sound : after.Sound
  later : Later seated after
  parent_eq : after.parentOf = adoptChain seated.parentOf chain here
  truthful : Forest.Truthful (Related inputs) after
  chain_lt : ∀ c ∈ chain, c < after.size
  chain_point : chain.map after.point = input.chainIds.map Point.id
  keyed : ∀ key ∈ input.keys, ∃ m, after.table.get key = some m ∧ after.classes.Same here m

theorem join_spec {seated : Forest} {i here : Nat} (hin : inputs[i]? = some input)
    (hseated : seated.Sound) (hlt : here < seated.size)
    (hhere : seated.point here = homePoint inputs i input)
    (hseatedTrue : Forest.Truthful (Related inputs) seated) :
    Joined inputs input seated (Seating.join seated input here).1
      (Seating.join seated input here).2 here := by
  unfold Seating.join Forest.chain
  have hids : ∀ id ∈ input.chainIds, id ≠ [] := fun id hid => (mem_chainIds.mp hid).1
  have hchain := Forest.internAll_spec hseated hids
  rcases hnamed : seated.internAll input.chainIds with ⟨named, chain⟩
  rw [hnamed] at hchain
  rcases hchain with ⟨hsound, hinterned, hget⟩
  have hmem : ∀ c ∈ chain, ∃ id ∈ input.chainIds, named.table.get id = some c := by
    intro c hc
    have hsome : some c ∈ chain.map some := List.mem_map_of_mem hc
    rw [hget] at hsome
    rcases List.mem_map.mp hsome with ⟨id, hid, heq⟩
    exact ⟨id, hid, heq⟩
  have hof : ∀ id ∈ input.chainIds, ∃ c ∈ chain, named.table.get id = some c := by
    intro id hid
    have hsome : named.table.get id ∈ chain.map some := by
      rw [hget]
      exact List.mem_map_of_mem hid
    rcases List.mem_map.mp hsome with ⟨c, hc, heq⟩
    exact ⟨c, hc, heq.symm⟩
  have hcl : ∀ c ∈ chain, c < named.size := fun c hc => by
    rcases hmem c hc with ⟨id, _, htable⟩
    exact ((hsound.table_iff id c).mp htable).1
  have hhl : here < named.size := Nat.lt_of_lt_of_le hlt hinterned.size_le
  have hhome : Related inputs (named.point here) (.input i) := by
    rw [hinterned.point_eq hlt, hhere]
    exact (related_homePoint hin).symm
  have hrel : ∀ c ∈ chain, Related inputs (named.point here) (named.point c) := fun c hc => by
    rcases hmem c hc with ⟨id, hid, htable⟩
    rw [point_of_table hsound htable]
    exact hhome.trans (.of_joins (joins_of_key hin (List.mem_append_left _ hid)))
  have htrue := hseatedTrue.of_grown hseated hinterned.toGrown fun n hn => hinterned.point_eq hn
  rcases Forest.linkChain_spec hsound hcl hhl hrel htrue with ⟨hsound₁, hkept₁, hparent₁, htrue₁⟩
  rcases Forest.mergeChain_spec hsound₁ (fun c hc => by rw [hkept₁.size_eq]; exact hcl c hc)
    (by rw [hkept₁.size_eq]; exact hhl)
    (fun c hc => by rw [hkept₁.point_eq, hkept₁.point_eq]; exact hrel c hc) htrue₁ with
    ⟨hsound₂, hkept₂, hparent₂, htrue₂, hsame₂⟩
  have hkept := hkept₁.trans hkept₂
  rcases @joinProvider_spec _ inputs input _ hsound₂ (by rw [hkept.size_eq]; exact hhl)
    (fun id hid => by
      rw [hkept.point_eq]
      refine hhome.trans (.of_joins (joins_of_key hin (List.mem_append_right _ ?_)))
      simp [hid]) htrue₂ with ⟨hsound₃, hlater, hparent₃, htrue₃, hprovider⟩
  have hlt₂ : ∀ c ∈ chain, c < (chain.foldl (fun forest c => forest.merge here c)
      (Seating.linkChain named chain here)).size := fun c hc => by
    rw [hkept.size_eq]
    exact hcl c hc
  refine ⟨hsound₃, ((Later.of_interned hinterned).trans (.of_kept hkept)).trans hlater, ?_, htrue₃,
    fun c hc => Nat.lt_of_lt_of_le (hlt₂ c hc) hlater.size_le, ?_, fun key hkey => ?_⟩
  · rw [hparent₃, hparent₂, hparent₁, hinterned.parent_eq]
  · have hmap := congrArg (List.map fun place : Option Nat =>
      (place.map named.point).getD (.input 0)) hget
    rw [List.map_map, List.map_map] at hmap
    rw [show chain.map _ = chain.map named.point from List.map_congr_left fun c hc => by
      rw [hlater.point_eq (hlt₂ c hc), hkept.point_eq]]
    refine hmap.trans (List.map_congr_left fun id hid => ?_)
    rcases hof id hid with ⟨c, _, htable⟩
    rcases mem_chainIds.mp hid with ⟨_, raw, _, hraw⟩
    simp only [Function.comp_apply, htable, Option.map_some, Option.getD_some]
    rw [point_of_table hsound htable, ← hraw, Point.ofKey_normalizeId]
  · rcases List.mem_append.mp hkey with hid | hserver
    · rcases hof key hid with ⟨c, hc, htable⟩
      refine ⟨c, hlater.table_of _ _ ?_, hlater.same_of _ _ (hsame₂ c hc)⟩
      rw [hkept.table_eq]
      exact htable
    · cases hid : input.providerId with
      | none => simp [hid] at hserver
      | some id =>
        simp only [hid, Option.map_some, Option.toList_some, List.mem_singleton] at hserver
        rw [hserver]
        exact hprovider id hid

theorem getElem?_concat_iff {home : List Nat} {here i n : Nat} :
    (home ++ [here])[i]? = some n ↔ home[i]? = some n ∨ (i = home.length ∧ n = here) := by
  rw [List.getElem?_append]
  by_cases hi : i < home.length
  · rw [if_pos hi]
    simp [hi.ne]
  · have hpast : home[i]? = none := List.getElem?_eq_none (by omega)
    rw [if_neg hi, hpast]
    by_cases heq : i = home.length
    · simp [heq, eq_comm]
    · rw [List.getElem?_eq_none (by simp; omega)]
      simp [heq]

/-- Containers already there keep their points, the one just taken included. -/
theorem Reading.point_seated {seated : Forest} {here : Nat} (h : Reading inputs seating)
    (hs : Forest.Seats seating.forest seated input.ownId seating.home.length here) {n : Nat}
    (hn : n < seating.forest.size) : seated.point n = seating.forest.point n := by
  rw [Forest.point, Forest.point, hs.grown.id_eq n hn, hs.msg]
  by_cases hnil : (seating.forest.node n).id = []
  · have hne : n ≠ here := fun heq => h.alone n hn hnil (by rw [heq]; exact hs.free)
    rw [if_neg hne]
  · rw [if_neg hnil, if_neg hnil]

/-- Reading one more input keeps what holds, and links its chain. -/
theorem Reading.read (h : Reading inputs seating)
    (hin : inputs[seating.home.length]? = some input) :
    Reading inputs (seating.read input) ∧
      ∃ chain here, ReadOne inputs seating (seating.read input) input chain here := by
  have hs := Forest.seat_spec h.sound input.ownId seating.home.length
  have hhere := seat_point h hin hs
  have hread : seating.read input =
      let seat := seating.forest.seat input.ownId seating.home.length
      let join := Seating.join seat.1 input seat.2
      ⟨join.1, seating.home ++ [seat.2], seating.rootless ++ [join.2.isEmpty]⟩ := rfl
  rw [hread]
  dsimp only
  generalize (seating.forest.seat input.ownId seating.home.length).1 = seated at *
  generalize (seating.forest.seat input.ownId seating.home.length).2 = here at *
  have hjoined := join_spec hin hs.sound hs.lt hhere
    (h.truthful.of_grown h.sound hs.grown fun n hn => h.point_seated hs hn)
  generalize (Seating.join seated input here).1 = after at *
  generalize (Seating.join seated input here).2 = chain at *
  have hlate := hjoined.later
  have hsize : seating.forest.size ≤ after.size := Nat.le_trans hs.grown.size_le hlate.size_le
  have hpoint : ∀ n, n < seating.forest.size → after.point n = seating.forest.point n := fun n hn =>
    (hlate.point_eq (Nat.lt_of_lt_of_le hn hs.grown.size_le)).trans (h.point_seated hs hn)
  have hhome : after.point here = homePoint inputs seating.home.length input :=
    (hlate.point_eq hs.lt).trans hhere
  have hmsg : ∀ n, (after.node n).msg =
      if n = here then some seating.home.length else (seating.forest.node n).msg := fun n =>
    (hlate.msg_eq n).trans (hs.msg n)
  refine ⟨⟨hjoined.sound, ?_, fun i n => ?_, fun i n other hi hother => ?_, fun n hn hid => ?_,
    hjoined.truthful, fun i n other key hi hother hkey => ?_⟩, chain, here, rfl, hsize, hpoint,
    hjoined.parent_eq.trans (by rw [hs.grown.parent_eq]), hjoined.chain_lt, hjoined.chain_point,
    Nat.lt_of_lt_of_le hs.lt hlate.size_le, hhome⟩
  · have hlength := congrArg List.length hjoined.chain_point
    rw [List.length_map, List.length_map] at hlength
    have hempty : chain.isEmpty = input.chainIds.isEmpty := by
      rw [Bool.eq_iff_iff, List.isEmpty_iff, List.isEmpty_iff, ← List.length_eq_zero_iff, hlength,
        List.length_eq_zero_iff]
    rw [List.length_append, List.length_singleton, List.take_add_one, hin, List.map_append,
      h.rootless_eq, hempty]
    rfl
  · rw [getElem?_concat_iff, hmsg]
    by_cases hn : n = here
    · have hfree : seating.home[i]? ≠ some here := fun hseated => by
        have hmsg' := (h.home_iff i here).mp hseated
        rw [hs.free] at hmsg'
        cases hmsg'
      rw [if_pos hn, hn]
      simp [hfree, eq_comm]
    · rw [if_neg hn, ← h.home_iff]
      simp [hn]
  · rcases getElem?_concat_iff.mp hi with hseated | ⟨heq, hn⟩
    · rw [hpoint n (Forest.lt_of_msg ((h.home_iff i n).mp hseated))]
      exact h.home_point i n other hseated hother
    · rw [heq, hin, Option.some.injEq] at hother
      rw [heq, hn, ← hother]
      exact hhome
  · rw [hmsg]
    by_cases heq : n = here
    · simp [heq]
    · rw [if_neg heq]
      by_cases hb : n < seating.forest.size
      · rw [hlate.id_eq n (Nat.lt_of_lt_of_le hb hs.grown.size_le), hs.grown.id_eq n hb] at hid
        exact h.alone n hb hid
      · by_cases hb' : n < seated.size
        · exact absurd (hs.new n (by omega) hb') heq
        · exact absurd hid (hlate.keyed n (by omega) hn)
  · rcases getElem?_concat_iff.mp hi with hseated | ⟨heq, hn⟩
    · rcases h.complete i n other key hseated hother hkey with ⟨m, htable, hsame⟩
      exact ⟨m, hlate.table_of _ _ (hs.grown.table_of _ _ htable),
        hlate.same_of _ _ ((hs.grown.same_iff _ _).mpr hsame)⟩
    · rw [heq, hin, Option.some.injEq] at hother
      rw [← hother] at hkey
      rw [hn]
      exact hjoined.keyed key hkey

theorem Seating.length_read (seating : Seating) (input : ThreadInput) :
    (seating.read input).home.length = seating.home.length + 1 := by
  simp [Seating.read]

/-- What holds at first and is kept by reading one more input holds once all are read. -/
theorem Reading.run {inputs : List ThreadInput} (holds : Seating → Prop)
    (hempty : holds Seating.empty)
    (hstep : ∀ seating input, Reading inputs seating → inputs[seating.home.length]? = some input →
      holds seating → holds (seating.read input)) :
    Reading inputs (Seating.readAll inputs) ∧ holds (Seating.readAll inputs) ∧
      (Seating.readAll inputs).home.length = inputs.length := by
  have key : ∀ (rest done : List ThreadInput) (seating : Seating), done ++ rest = inputs →
      seating.home.length = done.length → Reading inputs seating → holds seating →
      Reading inputs (rest.foldl Seating.read seating) ∧ holds (rest.foldl Seating.read seating) ∧
        (rest.foldl Seating.read seating).home.length = inputs.length := by
    intro rest
    induction rest with
    | nil =>
      intro done seating hsplit hlen hread hholds
      rw [List.append_nil] at hsplit
      exact ⟨hread, hholds, by rw [← hsplit]; exact hlen⟩
    | cons input rest ih =>
      intro done seating hsplit hlen hread hholds
      have hin : inputs[seating.home.length]? = some input := by
        rw [← hsplit, hlen, List.getElem?_append_right (Nat.le_refl _)]
        simp
      refine ih (done ++ [input]) (seating.read input) ?_ ?_ (hread.read hin).1
        (hstep seating input hread hin hholds)
      · rw [List.append_assoc]
        exact hsplit
      · rw [Seating.length_read, hlen, List.length_append, List.length_singleton]
  exact key inputs [] Seating.empty rfl rfl (Reading.empty inputs) hempty

theorem Reading.all (inputs : List ThreadInput) : Reading inputs (Seating.readAll inputs) ∧
    (Seating.readAll inputs).home.length = inputs.length := by
  have h := @Reading.run inputs (fun _ => True) trivial fun _ _ _ _ _ => trivial
  exact ⟨h.1, h.2.2⟩

/-! ## The classes once everything is read -/

namespace Reading

variable {inputs : List ThreadInput} {seating : Seating}

/-- No two containers stand for one point. -/
theorem point_inj (h : Reading inputs seating) {a b : Nat} (ha : a < seating.forest.size)
    (hb : b < seating.forest.size) (heq : seating.forest.point a = seating.forest.point b) :
    a = b := by
  by_cases hida : (seating.forest.node a).id = []
  · by_cases hidb : (seating.forest.node b).id = []
    · cases hma : (seating.forest.node a).msg with
      | none => exact absurd hma (h.alone a ha hida)
      | some i =>
        cases hmb : (seating.forest.node b).msg with
        | none => exact absurd hmb (h.alone b hb hidb)
        | some j =>
          rw [Forest.point, if_pos hida, Forest.point, if_pos hidb, hma, hmb] at heq
          simp only [Option.getD_some, Point.input.injEq] at heq
          have hseat := (h.home_iff i a).mpr hma
          rw [heq, (h.home_iff j b).mpr hmb, Option.some.injEq] at hseat
          exact hseat.symm
    · rw [Forest.point, if_pos hida, Forest.point, if_neg hidb] at heq
      exact absurd heq.symm (Point.ofKey_ne_input _ _)
  · rw [Forest.point, if_neg hida] at heq
    have hid := id_of_point heq.symm
    have hta := (h.sound.table_iff _ a).mpr ⟨ha, rfl, hida⟩
    have htb := (h.sound.table_iff _ b).mpr ⟨hb, hid, hida⟩
    rw [hta, Option.some.injEq] at htb
    exact htb

/-- A container stands for a point, or is the home of one. -/
def Stands (seating : Seating) (n : Nat) (p : Point) : Prop :=
  (n < seating.forest.size ∧ seating.forest.point n = p) ∨
    ∃ i, seating.home[i]? = some n ∧ p = .input i

variable {n : Nat} {p : Point}

theorem related_of_stands (h : Reading inputs seating) (hlen : seating.home.length = inputs.length)
    (hs : Stands seating n p) :
    n < seating.forest.size ∧ Related inputs (seating.forest.point n) p := by
  rcases hs with ⟨hn, heq⟩ | ⟨i, hi, heq⟩
  · rw [heq]
    exact ⟨hn, .refl inputs p⟩
  · have hlt : i < inputs.length := hlen ▸ (List.getElem?_eq_some_iff.mp hi).1
    have hin : inputs[i]? = some inputs[i] := List.getElem?_eq_getElem hlt
    rw [heq, h.home_point i n _ hi hin]
    exact ⟨Forest.lt_of_msg ((h.home_iff i n).mp hi), (related_homePoint hin).symm⟩

variable {m : Nat} {q : Point}

theorem eq_of_stands (h : Reading inputs seating) (hlen : seating.home.length = inputs.length)
    (hn : Stands seating n p) (hm : Stands seating m p) : n = m := by
  have key : ∀ {n m i}, n < seating.forest.size → seating.forest.point n = .input i →
      seating.home[i]? = some m → n = m := by
    intro n m i hn hp hi
    have hlt : i < inputs.length := hlen ▸ (List.getElem?_eq_some_iff.mp hi).1
    have hid : (seating.forest.node n).id = [] := by
      by_contra hne
      rw [Forest.point, if_neg hne] at hp
      exact Point.ofKey_ne_input _ _ hp
    cases hmsg : (seating.forest.node n).msg with
    | none => exact absurd hmsg (h.alone n hn hid)
    | some j =>
      rw [Forest.point, if_pos hid, hmsg, Option.getD_some, Point.input.injEq] at hp
      have hseat := (h.home_iff j n).mpr hmsg
      rw [hp, hi, Option.some.injEq] at hseat
      exact hseat.symm
  rcases hn with ⟨hn, hpn⟩ | ⟨i, hi, hpn⟩
  · rcases hm with ⟨hm, hpm⟩ | ⟨j, hj, hpm⟩
    · exact h.point_inj hn hm (hpn.trans hpm.symm)
    · exact key hn (hpn.trans hpm) hj
  · rcases hm with ⟨hm, hpm⟩ | ⟨j, hj, hpm⟩
    · exact (key hm (hpm.trans hpn) hi).symm
    · rw [hpn, Point.input.injEq] at hpm
      rw [hpm, hj, Option.some.injEq] at hi
      exact hi.symm

/-- Related points, where each has a container, share a class. -/
theorem same_of_related (h : Reading inputs seating) (hlen : seating.home.length = inputs.length)
    (hr : Related inputs p q) :
    p = q ∨ ∃ n m, Stands seating n p ∧ Stands seating m q ∧ seating.forest.classes.Same n m := by
  induction hr with
  | rel p q hj =>
    rcases key_of_joins hj with ⟨i, input, hin, heq, hside⟩
    subst heq
    have hlt : i < seating.home.length := hlen ▸ (List.getElem?_eq_some_iff.mp hin).1
    have hi : seating.home[i]? = some seating.home[i] := List.getElem?_eq_getElem hlt
    have hhome : Stands seating seating.home[i] (.input i) := Or.inr ⟨i, hi, rfl⟩
    rcases hside with ⟨key, hkey, heq⟩ | heq
    · rcases h.complete i _ input key hi hin hkey with ⟨m, htable, hsame⟩
      refine Or.inr ⟨_, m, hhome, Or.inl ⟨((h.sound.table_iff key m).mp htable).1, ?_⟩, hsame⟩
      rw [heq]
      exact point_of_table h.sound htable
    · refine Or.inr ⟨_, _, hhome, Or.inl ⟨Forest.lt_of_msg ((h.home_iff i _).mp hi), ?_⟩, rfl⟩
      rw [heq]
      exact h.home_point i _ input hi hin
  | refl p => exact Or.inl rfl
  | symm p q _ ih =>
    rcases ih with heq | ⟨n, m, hn, hm, hs⟩
    · exact Or.inl heq.symm
    · exact Or.inr ⟨m, n, hm, hn, hs.symm⟩
  | trans p q r _ _ ih ih' =>
    rcases ih with heq | ⟨n, m, hn, hm, hs⟩
    · rw [heq]
      exact ih'
    · rcases ih' with heq | ⟨n', m', hn', hm', hs'⟩
      · rw [← heq]
        exact Or.inr ⟨n, m, hn, hm, hs⟩
      · refine Or.inr ⟨n, m', hn, hm', hs.trans ?_⟩
        rw [h.eq_of_stands hlen hm hn']
        exact hs'

/-- Two containers share a class exactly when the points they stand for are related. -/
theorem same_iff (h : Reading inputs seating) (hlen : seating.home.length = inputs.length)
    (hn : Stands seating n p) (hm : Stands seating m q) :
    seating.forest.classes.Same n m ↔ Related inputs p q := by
  have hpn := h.related_of_stands hlen hn
  have hpm := h.related_of_stands hlen hm
  constructor
  · intro hs
    exact (hpn.2.symm.trans (h.truthful n m hpn.1 hpm.1 hs)).trans hpm.2
  · intro hr
    rcases h.same_of_related hlen hr with heq | ⟨a, b, ha, hb, hs⟩
    · subst heq
      rw [h.eq_of_stands hlen hn hm]
      rfl
    · rw [h.eq_of_stands hlen hn ha, h.eq_of_stands hlen hm hb]
      exact hs

end Reading

end Mailo.Domain.Threading
