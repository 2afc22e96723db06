import Mailo.Domain.Threading.Forest

/-!
# What holds of the arena while inputs are read

The table finds every container that has an id, the parent pointers and the lists of children
agree, no container descends from itself, and a container is in the class of its parent. Reading
only adds containers, sets links and joins classes.
-/

namespace Mailo.Domain.Threading

open Library Library.ParentForest

namespace Forest

variable {forest : Forest}

variable {n child parent : Nat} {a b c : Forest}

theorem node_of_size_le (h : forest.size ≤ n) : forest.node n = default :=
  List.getD_eq_default _ _ h

variable {i : Nat} {id : List Char}

theorem lt_of_msg (h : (forest.node n).msg = some i) : n < forest.size := by
  by_cases hn : n < forest.size
  · exact hn
  · rw [node_of_size_le (by omega)] at h
    cases h

theorem lt_of_parent {p : Nat} (h : forest.parentOf n = some p) : n < forest.size := by
  by_cases hn : n < forest.size
  · exact hn
  · rw [parentOf, node_of_size_le (by omega)] at h
    cases h

@[simp] theorem size_modify (m : Nat) (f : Container → Container) :
    (forest.modify m f).size = forest.size := by
  simp [size, modify]

theorem node_modify {m : Nat} (h : m < forest.size) (f : Container → Container) (n : Nat) :
    (forest.modify m f).node n = if n = m then f (forest.node n) else forest.node n := by
  show (forest.nodes.modify m f).getD n default = _
  rw [List.getD_eq_getElem?_getD, List.getElem?_modify]
  by_cases hn : n = m
  · subst hn
    have hget : forest.nodes[n]? = some forest.nodes[n] := List.getElem?_eq_getElem h
    simp [node, List.getD_eq_getElem?_getD, hget]
  · simp [node, List.getD_eq_getElem?_getD, hn, Ne.symm hn]

/-- A change that leaves a field of every container alone. -/
theorem field_modify {α : Type} (field : Container → α) {m : Nat} {f : Container → Container}
    (hf : ∀ c, field (f c) = field c) (n : Nat) :
    field ((forest.modify m f).node n) = field (forest.node n) := by
  by_cases h : m < forest.size
  · rw [node_modify h]
    split
    · exact hf _
    · rfl
  · have hsame : forest.nodes.modify m f = forest.nodes :=
      List.modify_eq_self (by unfold size at h; omega)
    show field ((forest.nodes.modify m f).getD n default) = _
    rw [hsame]
    rfl

theorem node_push (id : List Char) (n : Nat) :
    (forest.push id).1.node n =
      if n = forest.size then { (default : Container) with id := id } else forest.node n := by
  show (forest.nodes ++ [{ (default : Container) with id := id }]).getD n default = _
  rw [List.getD_eq_getElem?_getD, List.getElem?_append]
  by_cases h : n < forest.nodes.length
  · rw [if_pos h, if_neg (by unfold size; omega)]
    simp [node, List.getD_eq_getElem?_getD]
  · rw [if_neg h]
    by_cases hn : n = forest.size
    · subst hn
      simp [size]
    · rw [if_neg hn, node_of_size_le (by unfold size; omega), List.getElem?_eq_none]
      · rfl
      · unfold size at hn
        simp
        omega

@[simp] theorem size_push (id : List Char) : (forest.push id).1.size = forest.size + 1 := by
  simp [push, size]

/-- The arena while inputs are read. -/
structure Sound (forest : Forest) : Prop where
  classes_size : forest.classes.size = forest.size
  table_iff : ∀ id n, forest.table.get id = some n ↔
    n < forest.size ∧ (forest.node n).id = id ∧ id ≠ []
  parent_lt : ∀ n p, forest.parentOf n = some p → p < forest.size
  acyclic : Acyclic forest.parentOf
  children_iff : ∀ n c, c ∈ (forest.node n).children ↔ forest.parentOf c = some n
  children_nodup : ∀ n, (forest.node n).children.Nodup
  related : ∀ n p, forest.parentOf n = some p → forest.classes.Same n p
  alive : ∀ n, (forest.node n).dead = false

namespace Sound

theorem within (h : Sound forest) : Within forest.parentOf (Finset.range forest.size) :=
  fun n p hup => ⟨Finset.mem_range.mpr (lt_of_parent hup),
    Finset.mem_range.mpr (h.parent_lt n p hup)⟩

theorem descendsFrom_iff (h : Sound forest) (hn : n < forest.size) (ancestor : Nat) :
    forest.descendsFrom n ancestor = true ↔ Descends forest.parentOf n ancestor := by
  have hwalk := walk_iff h.acyclic h.within ancestor (Finset.mem_range.mpr hn)
  rw [Finset.card_range] at hwalk
  exact hwalk

/-- A container past the end of the arena is in no other's class. -/
theorem eq_of_same (h : Sound forest) {a b : Nat} (ha : forest.size ≤ a)
    (hs : forest.classes.Same a b) : a = b := by
  by_cases hab : b ≤ a
  · exact Classes.eq_of_same_size (h.classes_size ▸ ha) hab hs
  · exact (Classes.eq_of_same_size (h.classes_size ▸ (by omega)) (by omega) hs.symm).symm

theorem empty : Sound Forest.empty where
  classes_size := rfl
  table_iff id n := by
    show (none : Option Nat) = some n ↔ n < 0 ∧ _
    simp
  parent_lt n p h := by cases h
  acyclic n p h := by cases h
  children_iff n c := by
    show c ∈ [] ↔ none = some n
    simp
  children_nodup _ := List.nodup_nil
  related n p h := by cases h
  alive _ := rfl

end Sound

/-! ## New containers -/

/-- The arena grown by containers that hang nowhere and are alone in their class. -/
structure Grown (before after : Forest) : Prop where
  size_le : before.size ≤ after.size
  id_eq : ∀ n, n < before.size → (after.node n).id = (before.node n).id
  parent_eq : after.parentOf = before.parentOf
  same_iff : ∀ a b, after.classes.Same a b ↔ before.classes.Same a b
  table_of : ∀ id n, before.table.get id = some n → after.table.get id = some n

theorem Grown.refl (forest : Forest) : Grown forest forest :=
  ⟨Nat.le_refl _, fun _ _ => rfl, rfl, fun _ _ => Iff.rfl, fun _ _ h => h⟩

theorem Grown.trans (h : Grown a b) (k : Grown b c) : Grown a c :=
  ⟨Nat.le_trans h.size_le k.size_le,
    fun n hn => (k.id_eq n (Nat.lt_of_lt_of_le hn h.size_le)).trans (h.id_eq n hn),
    k.parent_eq.trans h.parent_eq, fun x y => (k.same_iff x y).trans (h.same_iff x y),
    fun id n hn => k.table_of id n (h.table_of id n hn)⟩

/-- Grown by containers of keys, with no message seated. -/
structure Interned (before after : Forest) : Prop extends Grown before after where
  msg_eq : ∀ n, (after.node n).msg = (before.node n).msg
  keyed : ∀ n, before.size ≤ n → n < after.size → (after.node n).id ≠ []

theorem Interned.refl (forest : Forest) : Interned forest forest :=
  ⟨Grown.refl forest, fun _ => rfl, fun n hn hlt => by omega⟩

theorem Interned.trans (h : Interned a b) (k : Interned b c) : Interned a c where
  toGrown := h.toGrown.trans k.toGrown
  msg_eq n := (k.msg_eq n).trans (h.msg_eq n)
  keyed n hn hlt := by
    by_cases hb : n < b.size
    · rw [k.id_eq n hb]
      exact h.keyed n hn hb
    · exact k.keyed n (by omega) hlt

theorem parentOf_push (id : List Char) : (forest.push id).1.parentOf = forest.parentOf := by
  funext n
  show ((forest.push id).1.node n).parent = _
  rw [node_push]
  by_cases hn : n = forest.size
  · rw [if_pos hn, parentOf, node_of_size_le (by omega)]
  · rw [if_neg hn, parentOf]

theorem grown_push (id : List Char) : Grown forest (forest.push id).1 where
  size_le := by simp
  id_eq n hn := by rw [node_push, if_neg (by omega)]
  parent_eq := parentOf_push id
  same_iff a b := Classes.same_push forest.classes a b
  table_of _ _ h := h

theorem Sound.of_push (h : Sound forest) {id : List Char} {table : Table (List Char) Nat}
    (htable : ∀ other n, table.get other = some n ↔
      n < forest.size + 1 ∧ ((forest.push id).1.node n).id = other ∧ other ≠ []) :
    Sound { (forest.push id).1 with table := table } := by
  have hparent : ({ (forest.push id).1 with table := table } : Forest).parentOf =
      forest.parentOf := parentOf_push id
  have hchildren : ∀ n, (({ (forest.push id).1 with table := table } : Forest).node n).children =
      (forest.node n).children := by
    intro n
    show ((forest.push id).1.node n).children = _
    rw [node_push]
    by_cases hn : n = forest.size
    · rw [if_pos hn, node_of_size_le (by omega)]
    · rw [if_neg hn]
  refine ⟨?_, ?_, ?_, ?_, ?_, ?_, ?_, ?_⟩
  · show forest.classes.push.size = (forest.push id).1.size
    rw [Classes.size_push, size_push, h.classes_size]
  · intro other n
    refine (htable other n).trans ?_
    rw [← size_push id]
    rfl
  · intro n p hup
    rw [hparent] at hup
    have hp := h.parent_lt n p hup
    show p < (forest.push id).1.size
    rw [size_push]
    omega
  · rw [hparent]
    exact h.acyclic
  · intro n c
    rw [hchildren, hparent]
    exact h.children_iff n c
  · intro n
    rw [hchildren]
    exact h.children_nodup n
  · intro n p hup
    rw [hparent] at hup
    exact (Classes.same_push forest.classes n p).mpr (h.related n p hup)
  · intro n
    show ((forest.push id).1.node n).dead = false
    rw [node_push]
    by_cases hn : n = forest.size
    · rw [if_pos hn]
      rfl
    · rw [if_neg hn]
      exact h.alive n

theorem sound_push_alone (h : Sound forest) : Sound (forest.push []).1 := by
  refine @Sound.of_push forest h [] forest.table fun other n => ?_
  rw [h.table_iff, node_push]
  by_cases hn : n = forest.size
  · subst hn
    simp
  · rw [if_neg hn]
    constructor
    · intro hk
      exact ⟨by omega, hk.2⟩
    · intro hk
      exact ⟨by omega, hk.2⟩

/-- The container for an id, found or made. -/
theorem intern_spec (h : Sound forest) (hid : id ≠ []) :
    Sound (forest.intern id).1 ∧ Interned forest (forest.intern id).1 ∧
      (forest.intern id).1.table.get id = some (forest.intern id).2 := by
  unfold intern
  cases hget : forest.table.get id with
  | some place => exact ⟨h, Interned.refl forest, hget⟩
  | none =>
    have hfresh : ∀ n, n < forest.size → (forest.node n).id ≠ id := fun n hn heq => by
      rw [(h.table_iff id n).mpr ⟨hn, heq, hid⟩] at hget
      cases hget
    refine ⟨h.of_push fun other n => ?_, ⟨⟨by simp [push, size], fun n hn => ?_,
      parentOf_push id, fun a b => Classes.same_push forest.classes a b, fun other n hn => ?_⟩,
      fun n => ?_, fun n hn hlt => ?_⟩, ?_⟩
    · rw [Table.get_set, node_push]
      by_cases hother : other = id
      · subst hother
        by_cases hn : n = forest.size
        · subst hn
          simp [push, hid]
        · have hne : forest.size ≠ n := fun heq => hn heq.symm
          simp only [push, if_true, Option.some.injEq, if_neg hn]
          constructor
          · intro heq
            exact absurd heq hne
          · intro hk
            exact absurd hk.2.1 (hfresh n (by omega))
      · have hpushed : (forest.push id).1.table.get other = some n ↔
            n < forest.size ∧ (forest.node n).id = other ∧ other ≠ [] := h.table_iff other n
        rw [if_neg hother, hpushed]
        by_cases hn : n = forest.size
        · subst hn
          simp [Ne.symm hother]
        · rw [if_neg hn]
          constructor
          · intro hk
            exact ⟨by omega, hk.2⟩
          · intro hk
            exact ⟨by omega, hk.2⟩
    · show ((forest.push id).1.node n).id = _
      rw [node_push, if_neg (by omega)]
    · have hne : other ≠ id := fun heq => by
        rw [heq, hget] at hn
        cases hn
      rw [Table.get_set, if_neg hne]
      exact hn
    · show ((forest.push id).1.node n).msg = _
      rw [node_push]
      by_cases hn : n = forest.size
      · rw [if_pos hn, node_of_size_le (by omega)]
      · rw [if_neg hn]
    · have hlt' : n < (forest.push id).1.size := hlt
      rw [size_push] at hlt'
      show ((forest.push id).1.node n).id ≠ []
      rw [node_push, if_pos (by omega)]
      exact hid
    · show ((forest.push id).1.table.set id (forest.push id).2).get id = _
      simp

theorem size_intern_le (id : List Char) : (forest.intern id).1.size ≤ forest.size + 1 := by
  unfold intern
  cases forest.table.get id with
  | some place => exact Nat.le_succ _
  | none => exact Nat.le_of_eq (size_push id)

theorem Sound.of_seated (h : Sound forest) {n i : Nat} :
    Sound (forest.modify n fun c => { c with msg := some i }) ∧
      Grown forest (forest.modify n fun c => { c with msg := some i }) := by
  have hparent : (forest.modify n fun c => { c with msg := some i }).parentOf =
      forest.parentOf := by
    funext m
    exact @field_modify forest _ (fun c => c.parent) n (fun c => { c with msg := some i })
      (fun _ => rfl) m
  have hid := fun m => @field_modify forest _ (fun c => c.id) n
    (fun c => { c with msg := some i }) (fun _ => rfl) m
  have hchildren := fun m => @field_modify forest _ (fun c => c.children) n
    (fun c => { c with msg := some i }) (fun _ => rfl) m
  have hdead := fun m => @field_modify forest _ (fun c => c.dead) n
    (fun c => { c with msg := some i }) (fun _ => rfl) m
  refine ⟨⟨?_, ?_, ?_, ?_, ?_, ?_, ?_, ?_⟩,
    ⟨by simp, fun m _ => hid m, hparent, fun _ _ => Iff.rfl, fun _ _ hm => hm⟩⟩
  · rw [size_modify]
    exact h.classes_size
  · intro id m
    rw [size_modify, hid]
    exact h.table_iff id m
  · intro m p hup
    rw [hparent] at hup
    rw [size_modify]
    exact h.parent_lt m p hup
  · rw [hparent]
    exact h.acyclic
  · intro m c
    rw [hchildren, hparent]
    exact h.children_iff m c
  · intro m
    rw [hchildren]
    exact h.children_nodup m
  · intro m p hup
    rw [hparent] at hup
    exact h.related m p hup
  · intro m
    rw [hdead]
    exact h.alive m

/-- Where an input is seated: the container of its id when that is free, else one of its own. -/
structure Seats (before after : Forest) (id : List Char) (i here : Nat) : Prop where
  sound : Sound after
  grown : Grown before after
  lt : here < after.size
  msg : ∀ n, (after.node n).msg = if n = here then some i else (before.node n).msg
  free : (before.node here).msg = none
  new : ∀ n, before.size ≤ n → n < after.size → n = here
  place : ((after.node here).id = id ∧ id ≠ [] ∧ ∀ n, before.table.get id = some n → n = here) ∨
    ((after.node here).id = [] ∧
      (id = [] ∨ ∃ n j, before.table.get id = some n ∧ (before.node n).msg = some j))

theorem seatAlone_spec (h : Sound forest)
    (hid : id = [] ∨ ∃ n j, forest.table.get id = some n ∧ (forest.node n).msg = some j) :
    Seats forest (forest.seatAlone i).1 id i (forest.seatAlone i).2 := by
  have hsound := @Sound.of_seated _ (sound_push_alone h) forest.size i
  have hlt : forest.size < (forest.push []).1.size := by simp
  refine ⟨hsound.1, (grown_push []).trans hsound.2, ?_, fun n => ?_, ?_, fun n hn hnew => ?_,
    Or.inr ⟨?_, hid⟩⟩
  · show forest.size < ((forest.push []).1.modify forest.size _).size
    rw [size_modify]
    exact hlt
  · show (((forest.push []).1.modify forest.size _).node n).msg =
      if n = forest.size then some i else _
    rw [node_modify hlt, node_push]
    by_cases hn : n = forest.size
    · rw [if_pos hn, if_pos hn, if_pos hn]
    · rw [if_neg hn, if_neg hn, if_neg hn]
  · show (forest.node forest.size).msg = none
    rw [node_of_size_le (Nat.le_refl _)]
    rfl
  · have hnew' : n < ((forest.push []).1.modify forest.size _).size := hnew
    rw [size_modify, size_push] at hnew'
    show n = forest.size
    omega
  · show (((forest.push []).1.modify forest.size _).node forest.size).id = []
    rw [node_modify hlt, node_push, if_pos rfl, if_pos rfl]

theorem seat_spec (h : Sound forest) (id : List Char) (i : Nat) :
    Seats forest (forest.seat id i).1 id i (forest.seat id i).2 := by
  unfold seat
  by_cases hid : id = []
  · simp only [hid, List.isEmpty_nil, if_true]
    exact seatAlone_spec h (Or.inl rfl)
  · rw [if_neg (by simpa using hid)]
    have hintern := intern_spec h hid
    rcases hin : forest.intern id with ⟨after, place⟩
    rw [hin] at hintern
    rcases hintern with ⟨hsound, hgrown, htable⟩
    have hmsg := hgrown.msg_eq
    have hplace := (hsound.table_iff id place).mp htable
    cases hseated : (after.node place).msg with
    | none =>
      have hnew := @Sound.of_seated _ hsound place i
      simp only [hseated, Option.isNone_none, if_true]
      refine ⟨hnew.1, hgrown.toGrown.trans hnew.2, by simpa using hplace.1, fun n => ?_, ?_,
        fun n hn hlt => ?_, Or.inl ⟨?_, hid, fun n hn => ?_⟩⟩
      · rw [node_modify hplace.1, ← hmsg n]
        split <;> rfl
      · rw [← hmsg place]
        exact hseated
      · rw [size_modify] at hlt
        have hone : after.size ≤ forest.size + 1 := by
          have hle := @size_intern_le forest id
          rw [hin] at hle
          exact hle
        by_cases hold : place < forest.size
        · have hsame : after.size = forest.size := by
            have hget : forest.table.get id = some place :=
              (h.table_iff id place).mpr ⟨hold, by
                rw [← hgrown.id_eq place hold]
                exact hplace.2.1, hid⟩
            rw [intern, hget, Prod.mk.injEq] at hin
            rw [hin.1]
          omega
        · have hlast : place < after.size := hplace.1
          omega
      · rw [node_modify hplace.1, if_pos rfl]
        exact hplace.2.1
      · have hsame := hgrown.table_of id n hn
        rw [htable, Option.some.injEq] at hsame
        exact hsame.symm
    | some j =>
      simp only [hseated, Option.isNone_some, Bool.false_eq_true, if_false]
      have hold : forest.table.get id = some place := by
        have hlt : place < forest.size := lt_of_msg ((hmsg place).symm.trans hseated)
        refine (h.table_iff id place).mpr ⟨hlt, ?_, hid⟩
        rw [← hgrown.id_eq place hlt]
        exact hplace.2.1
      have hsame : after = forest := by
        rw [intern, hold, Prod.mk.injEq] at hin
        exact hin.1.symm
      subst hsame
      exact seatAlone_spec h (Or.inr ⟨place, j, hold, (hmsg place).symm.trans hseated⟩)

theorem internAll_append (forest : Forest) (ids : List (List Char)) (id : List Char) :
    forest.internAll (ids ++ [id]) = (((forest.internAll ids).1.intern id).1,
      (forest.internAll ids).2 ++ [((forest.internAll ids).1.intern id).2]) := by
  rw [internAll, List.foldl_append]
  rfl

/-- The containers of a list of ids, in its order. -/
theorem internAll_spec (h : Sound forest) {ids : List (List Char)} (hids : ∀ id ∈ ids, id ≠ []) :
    Sound (forest.internAll ids).1 ∧ Interned forest (forest.internAll ids).1 ∧
      (forest.internAll ids).2.map some = ids.map (forest.internAll ids).1.table.get := by
  induction ids using List.reverseRecOn with
  | nil => exact ⟨h, Interned.refl forest, rfl⟩
  | append_singleton ids id ih =>
    obtain ⟨hsound, hgrown, hout⟩ := ih fun r hr => hids r (List.mem_append_left _ hr)
    have hstep := intern_spec hsound (hids id (List.mem_append_right _ (.head _)))
    rw [internAll_append]
    refine ⟨hstep.1, hgrown.trans hstep.2.1, ?_⟩
    have hkeep : ids.map (forest.internAll ids).1.table.get =
        ids.map ((forest.internAll ids).1.intern id).1.table.get := by
      refine List.map_congr_left fun r hr => ?_
      have hmem : (forest.internAll ids).1.table.get r ∈ (forest.internAll ids).2.map some := by
        rw [hout]
        exact List.mem_map_of_mem hr
      rcases List.mem_map.mp hmem with ⟨n, _, hn⟩
      rw [← hn, hstep.2.1.table_of r n hn.symm]
    rw [List.map_append, List.map_append, hout, hkeep]
    simp [hstep.2.2]

/-! ## Links and classes -/

/-- The same containers; links may differ, and classes may have been joined. -/
structure Kept (before after : Forest) : Prop where
  size_eq : after.size = before.size
  id_eq : ∀ n, (after.node n).id = (before.node n).id
  msg_eq : ∀ n, (after.node n).msg = (before.node n).msg
  table_eq : after.table = before.table
  same_of : ∀ a b, before.classes.Same a b → after.classes.Same a b

theorem Kept.refl (forest : Forest) : Kept forest forest :=
  ⟨rfl, fun _ => rfl, fun _ => rfl, rfl, fun _ _ h => h⟩

theorem Kept.trans (h : Kept a b) (k : Kept b c) : Kept a c :=
  ⟨k.size_eq.trans h.size_eq, fun n => (k.id_eq n).trans (h.id_eq n),
    fun n => (k.msg_eq n).trans (h.msg_eq n), k.table_eq.trans h.table_eq,
    fun x y hxy => k.same_of x y (h.same_of x y hxy)⟩

theorem merge_spec (h : Sound forest) {a b : Nat} (ha : a < forest.size) (hb : b < forest.size) :
    Sound (forest.merge a b) ∧ Kept forest (forest.merge a b) ∧
      (forest.merge a b).classes.Same a b := by
  have ha' : a < forest.classes.size := h.classes_size ▸ ha
  have hb' : b < forest.classes.size := h.classes_size ▸ hb
  refine ⟨⟨?_, h.table_iff, h.parent_lt, h.acyclic, h.children_iff, h.children_nodup,
    fun n p hup => ?_, h.alive⟩, ⟨rfl, fun _ => rfl, fun _ => rfl, rfl, fun x y hxy => ?_⟩, ?_⟩
  · exact (Classes.size_merge _ _ _).trans h.classes_size
  · exact Classes.same_merge_of_same ha' hb' (h.related n p hup)
  · exact Classes.same_merge_of_same ha' hb' hxy
  · exact Classes.same_merge_self ha' hb'

theorem same_of_merge (h : Sound forest) {a b : Nat} (ha : a < forest.size) (hb : b < forest.size)
    {x y : Nat} (hs : (forest.merge a b).classes.Same x y) :
    forest.classes.Same x y ∨ (forest.classes.Same x a ∧ forest.classes.Same b y) ∨
      (forest.classes.Same x b ∧ forest.classes.Same a y) :=
  (Classes.same_merge (h.classes_size ▸ ha) (h.classes_size ▸ hb) x y).mp hs

/-- `after` is `before` with `child` moved below `parent`. -/
structure Moved (before after : Forest) (parent child : Nat) : Prop where
  size_eq : after.size = before.size
  id_eq : ∀ n, (after.node n).id = (before.node n).id
  msg_eq : ∀ n, (after.node n).msg = (before.node n).msg
  dead_eq : ∀ n, (after.node n).dead = (before.node n).dead
  table_eq : after.table = before.table
  classes_eq : after.classes = before.classes.merge parent child
  parent_eq : after.parentOf = Function.update before.parentOf child (some parent)
  children_eq : ∀ n, (after.node n).children =
    if n = parent then (before.node n).children ++ [child]
    else (before.node n).children.filter (· != child)

theorem Moved.sound {after : Forest} (h : Sound forest) (hm : Moved forest after parent child)
    (hp : parent < forest.size) (hc : child < forest.size)
    (hno : ¬ Descends forest.parentOf parent child) (hnew : forest.parentOf child ≠ some parent) :
    Sound after where
  classes_size := by
    rw [hm.classes_eq, hm.size_eq]
    exact (Classes.size_merge _ _ _).trans h.classes_size
  table_iff id n := by
    rw [hm.table_eq, hm.size_eq, hm.id_eq]
    exact h.table_iff id n
  parent_lt n p hup := by
    rw [hm.parent_eq] at hup
    rw [hm.size_eq]
    by_cases hn : n = child
    · rw [hn, Function.update_self, Option.some.injEq] at hup
      omega
    · rw [Function.update_of_ne hn] at hup
      exact h.parent_lt n p hup
  acyclic := by
    have hcy := acyclic_adopt h.acyclic parent child
    rw [adopt_of_not_descends hno] at hcy
    rw [hm.parent_eq]
    exact hcy
  children_iff n c := by
    rw [hm.children_eq, hm.parent_eq]
    by_cases hcc : c = child
    · subst hcc
      by_cases hn : n = parent
      · simp [hn]
      · simp [hn, Ne.symm hn]
    · by_cases hn : n = parent
      · simp [hn, hcc, h.children_iff]
      · simp [hn, hcc, h.children_iff]
  children_nodup n := by
    rw [hm.children_eq]
    by_cases hn : n = parent
    · rw [if_pos hn, List.nodup_append]
      refine ⟨h.children_nodup n, by simp, fun a ha b hb heq => ?_⟩
      rw [List.mem_singleton] at hb
      rw [heq, hb, h.children_iff, hn] at ha
      exact hnew ha
    · rw [if_neg hn]
      exact (h.children_nodup n).filter _
  related n p hup := by
    have ha : parent < forest.classes.size := h.classes_size ▸ hp
    have hb : child < forest.classes.size := h.classes_size ▸ hc
    rw [hm.parent_eq] at hup
    rw [hm.classes_eq]
    by_cases hn : n = child
    · rw [hn, Function.update_self, Option.some.injEq] at hup
      rw [hn, ← hup]
      exact (Classes.same_merge_self ha hb).symm
    · rw [Function.update_of_ne hn] at hup
      exact Classes.same_merge_of_same ha hb (h.related n p hup)
  alive n := (hm.dead_eq n).trans (h.alive n)

theorem node_attach {parent child : Nat} (hp : parent < forest.size) (hc : child < forest.size)
    (n : Nat) : (forest.attach parent child).node n =
      { forest.node n with
        parent := if n = child then some parent else (forest.node n).parent
        children := if n = parent then (forest.node n).children ++ [child]
          else (forest.node n).children } := by
  have hp' : parent < (forest.modify child fun c => { c with parent := some parent }).size := by
    simpa using hp
  show ((forest.modify child _).modify parent _).node n = _
  rw [node_modify hp', node_modify hc]
  by_cases hnp : n = parent
  · subst hnp
    by_cases hnc : n = child
    · simp [hnc]
    · simp [hnc]
  · by_cases hnc : n = child
    · subst hnc
      simp [hnp]
    · simp [hnp, hnc]

theorem attach_moved (h : Sound forest) (hp : parent < forest.size) (hc : child < forest.size)
    (hfree : forest.parentOf child = none) :
    Moved forest (forest.attach parent child) parent child := by
  have hnode := fun n => node_attach hp hc n
  refine ⟨by simp [attach, merge, size, modify], fun n => by rw [hnode], fun n => by rw [hnode],
    fun n => by rw [hnode], rfl, rfl, funext fun n => ?_, fun n => ?_⟩
  · rw [parentOf, hnode, Function.update_apply]
    rfl
  · rw [hnode]
    by_cases hn : n = parent
    · simp [hn]
    · have hout : ∀ c ∈ (forest.node n).children, (c != child) = true := fun c hmem => by
        rw [h.children_iff] at hmem
        rw [bne_iff_ne]
        intro heq
        rw [heq, hfree] at hmem
        cases hmem
      rw [if_neg hn, List.filter_eq_self.mpr hout]
      simp [hn]

theorem detach_moved (h : Sound forest) {old : Nat} (hp : parent < forest.size)
    (hc : child < forest.size) (hold : forest.parentOf child = some old) (hne : old ≠ parent) :
    Moved forest ((forest.modify old fun c =>
      { c with children := c.children.filter (· != child) }).attach parent child) parent child := by
  have ho := h.parent_lt child old hold
  have hnode := fun n => @node_attach (forest.modify old fun c =>
      { c with children := c.children.filter (· != child) }) parent child (by simpa using hp)
      (by simpa using hc) n
  have hfirst := fun n => @node_modify forest old ho
    (fun c => { c with children := c.children.filter (· != child) }) n
  refine ⟨by simp [attach, merge, size, modify], fun n => ?_, fun n => ?_, fun n => ?_, rfl, rfl,
    funext fun n => ?_, fun n => ?_⟩
  · rw [hnode, hfirst]
    split <;> rfl
  · rw [hnode, hfirst]
    split <;> rfl
  · rw [hnode, hfirst]
    split <;> rfl
  · rw [parentOf, hnode, hfirst, Function.update_apply]
    by_cases hn : n = old
    · simp [hn, parentOf]
    · simp [hn, parentOf]
  · rw [hnode, hfirst]
    by_cases hn : n = old
    · subst hn
      simp [hne]
    · have hout : ∀ c ∈ (forest.node n).children, (c != child) = true := fun c hmem => by
        rw [h.children_iff] at hmem
        rw [bne_iff_ne]
        intro heq
        rw [heq, hold, Option.some.injEq] at hmem
        exact hn hmem.symm
      rw [if_neg hn, List.filter_eq_self.mpr hout]

/-- A link is an adoption, which joins the two classes when it is made. -/
theorem link_spec (h : Sound forest) (hp : parent < forest.size) (hc : child < forest.size) :
    Sound (forest.link parent child) ∧ Kept forest (forest.link parent child) ∧
      (forest.link parent child).parentOf = adopt forest.parentOf parent child ∧
      ∀ x y, (forest.link parent child).classes.Same x y → forest.classes.Same x y ∨
        (forest.classes.Same x parent ∧ forest.classes.Same child y) ∨
        (forest.classes.Same x child ∧ forest.classes.Same parent y) := by
  unfold link
  by_cases hd : Descends forest.parentOf parent child
  · rw [if_pos ((h.descendsFrom_iff hp child).mpr hd), adopt_of_descends hd]
    exact ⟨h, Kept.refl forest, rfl, fun x y hs => Or.inl hs⟩
  · rw [if_neg (fun hyes => hd ((h.descendsFrom_iff hp child).mp hyes)),
      adopt_of_not_descends hd]
    have moved : ∀ {after : Forest}, Moved forest after parent child →
        forest.parentOf child ≠ some parent → Sound after ∧ Kept forest after ∧
        after.parentOf = Function.update forest.parentOf child (some parent) ∧
        ∀ x y, after.classes.Same x y → forest.classes.Same x y ∨
          (forest.classes.Same x parent ∧ forest.classes.Same child y) ∨
          (forest.classes.Same x child ∧ forest.classes.Same parent y) := by
      intro after hm hnew
      have hmerged := merge_spec h hp hc
      refine ⟨hm.sound h hp hc hd hnew, ⟨hm.size_eq, hm.id_eq, hm.msg_eq, hm.table_eq,
        fun x y hs => ?_⟩, hm.parent_eq, fun x y hs => ?_⟩
      · rw [hm.classes_eq]
        exact hmerged.2.1.same_of x y hs
      · rw [hm.classes_eq] at hs
        exact same_of_merge h hp hc hs
    cases hold : forest.parentOf child with
    | none => exact moved (attach_moved h hp hc hold) (by simp [hold])
    | some old =>
      by_cases heq : old = parent
      · simp only [if_pos heq]
        refine ⟨h, Kept.refl forest, ?_, fun x y hs => Or.inl hs⟩
        rw [← heq, ← hold, Function.update_eq_self]
      · simp only [if_neg heq]
        exact moved (detach_moved h hp hc hold heq) (by simp [hold, heq])

theorem linkFree_spec (h : Sound forest) (hp : parent < forest.size) (hc : child < forest.size) :
    Sound (forest.linkFree parent child) ∧ Kept forest (forest.linkFree parent child) ∧
      (forest.linkFree parent child).parentOf = adoptFree forest.parentOf parent child ∧
      ∀ x y, (forest.linkFree parent child).classes.Same x y → forest.classes.Same x y ∨
        (forest.classes.Same x parent ∧ forest.classes.Same child y) ∨
        (forest.classes.Same x child ∧ forest.classes.Same parent y) := by
  unfold linkFree adoptFree
  cases hold : forest.parentOf child with
  | none =>
    have hlink := link_spec h hp hc
    exact hlink
  | some old =>
    simp only [Option.isNone_some, Bool.false_eq_true, if_false]
    exact ⟨h, Kept.refl forest, trivial, fun x y hs => Or.inl hs⟩

end Forest

end Mailo.Domain.Threading
