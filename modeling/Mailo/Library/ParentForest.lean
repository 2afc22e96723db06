import Mathlib.Algebra.BigOperators.Group.Finset.Basic
import Mathlib.Order.Nat
import Mailo.Library.Lists

/-!
# Forests kept as parent pointers

Each node has at most one parent. A node is adopted only by one that does not descend from it,
so no walk upwards comes back, and one over finitely many nodes ends.
-/

namespace Mailo.Library.ParentForest

variable {α : Type}

def Descends (up : α → Option α) (a b : α) : Prop :=
  Relation.ReflTransGen (fun c d => up c = some d) a b

def Acyclic (up : α → Option α) : Prop := ∀ a b, up a = some b → ¬ Descends up b a

variable {up : α → Option α} {a b c : α}

theorem Descends.refl (up : α → Option α) (a : α) : Descends up a a := Relation.ReflTransGen.refl

theorem Descends.trans (h : Descends up a b) (hb : Descends up b c) : Descends up a c :=
  Relation.ReflTransGen.trans h hb

theorem descends_of_up (h : up a = some b) : Descends up a b := Relation.ReflTransGen.single h

theorem descends_iff : Descends up a b ↔ a = b ∨ ∃ c, up a = some c ∧ Descends up c b := by
  constructor
  · intro h
    rcases Relation.ReflTransGen.cases_head h with heq | hstep
    · exact Or.inl heq
    · exact Or.inr hstep
  · intro h
    rcases h with heq | ⟨c, hup, hc⟩
    · subst heq
      exact Descends.refl up a
    · exact (descends_of_up hup).trans hc

section Adopt

variable [DecidableEq α]

/-- `child` hung below `parent`, unless `parent` already hangs below it. -/
noncomputable def adopt (up : α → Option α) (parent child : α) : α → Option α :=
  open Classical in
  if Descends up parent child then up else Function.update up child (some parent)

variable {child parent : α}

theorem adopt_of_descends (h : Descends up parent child) :
    adopt up parent child = up := if_pos h

theorem adopt_of_not_descends (h : ¬ Descends up parent child) :
    adopt up parent child = Function.update up child (some parent) := if_neg h

theorem descends_update (hno : ¬ Descends up parent child)
    (h : Descends (Function.update up child (some parent)) a b) :
    Descends up a b ∨ (Descends up a child ∧ Descends up parent b) := by
  induction h using Relation.ReflTransGen.head_induction_on with
  | refl => exact Or.inl (Descends.refl up b)
  | head hstep _ ih =>
    rename_i x y _
    by_cases hx : x = child
    · subst hx
      rw [Function.update_self, Option.some.injEq] at hstep
      subst hstep
      rcases ih with hb | hb
      · exact Or.inr ⟨Descends.refl up x, hb⟩
      · exact absurd hb.1 hno
    · rw [Function.update_of_ne hx] at hstep
      rcases ih with hb | hb
      · exact Or.inl ((descends_of_up hstep).trans hb)
      · exact Or.inr ⟨(descends_of_up hstep).trans hb.1, hb.2⟩

theorem acyclic_adopt (h : Acyclic up) (parent child : α) : Acyclic (adopt up parent child) := by
  by_cases hno : Descends up parent child
  · rw [adopt_of_descends hno]
    exact h
  · rw [adopt_of_not_descends hno]
    intro x y hup hyx
    by_cases hx : x = child
    · subst hx
      rw [Function.update_self, Option.some.injEq] at hup
      subst hup
      rcases descends_update hno hyx with hd | hd
      · exact hno hd
      · exact hno hd.2
    · rw [Function.update_of_ne hx] at hup
      rcases descends_update hno hyx with hd | hd
      · exact h x y hup hd
      · exact hno ((hd.2.trans (descends_of_up hup)).trans hd.1)

noncomputable def adoptFree (up : α → Option α) (parent child : α) : α → Option α :=
  match up child with
  | none => adopt up parent child
  | some _ => up

noncomputable def adoptPairs (up : α → Option α) (pairs : List (α × α)) : α → Option α :=
  pairs.foldl (fun up pair => adoptFree up pair.1 pair.2) up

/-- A chain of ancestors, oldest first: each next one is taken by the one before it where it is
free, and `last` by the end of the chain whatever parent it had. -/
noncomputable def adoptChain (up : α → Option α) (chain : List α) (last : α) : α → Option α :=
  match chain.getLast? with
  | none => adoptPairs up (chain.zip chain.tail)
  | some parent => adopt (adoptPairs up (chain.zip chain.tail)) parent last

end Adopt

/-! ## Finitely many nodes -/

section Finite

/-- The nodes with a parent, and the parents, are all in `nodes`. -/
def Within (up : α → Option α) (nodes : Finset α) : Prop :=
  ∀ a b, up a = some b → a ∈ nodes ∧ b ∈ nodes

open Classical in
/-- The nodes above `a`, itself among them. -/
noncomputable def above (up : α → Option α) (nodes : Finset α) (a : α) : Finset α :=
  nodes.filter (Descends up a)

variable {nodes : Finset α}

theorem mem_above : b ∈ above up nodes a ↔ b ∈ nodes ∧ Descends up a b := by
  simp [above]

theorem card_above_lt (hcy : Acyclic up) (hin : Within up nodes) (hup : up a = some b) :
    (above up nodes b).card < (above up nodes a).card := by
  refine Finset.card_lt_card ⟨fun x hx => ?_, fun hsub => ?_⟩
  · have h := mem_above.mp hx
    exact mem_above.mpr ⟨h.1, (descends_of_up hup).trans h.2⟩
  · have ha := hsub (mem_above.mpr ⟨(hin a b hup).1, Descends.refl up a⟩)
    exact hcy a b hup (mem_above.mp ha).2

/-- The walk up from a node in search of `ancestor`; one that is cut short says it was found. -/
def walk [DecidableEq α] (up : α → Option α) (ancestor : α) : Nat → Option α → Bool
  | 0, _ => true
  | _ + 1, none => false
  | fuel + 1, some a => if a = ancestor then true else walk up ancestor fuel (up a)

theorem walk_of_fuel [DecidableEq α] (hcy : Acyclic up) (hin : Within up nodes) (ancestor : α) (fuel : Nat)
    (ha : a ∈ nodes) (hfuel : (above up nodes a).card < fuel) :
    walk up ancestor fuel (some a) = true ↔ Descends up a ancestor := by
  induction fuel generalizing a with
  | zero => omega
  | succ fuel ih =>
    by_cases heq : a = ancestor
    · subst heq
      simp [walk, Descends.refl]
    · rw [walk, if_neg heq, descends_iff]
      cases hup : up a with
      | none =>
        have hpos : 0 < (above up nodes a).card :=
          Finset.card_pos.mpr ⟨a, mem_above.mpr ⟨ha, Descends.refl up a⟩⟩
        cases fuel with
        | zero => omega
        | succ fuel => simp [walk, heq]
      | some b =>
        have hlt := card_above_lt hcy hin hup
        rw [ih (hin a b hup).2 (by omega)]
        simp [heq]

/-- One turn more than there are nodes is enough for every walk. -/
theorem walk_iff [DecidableEq α] (hcy : Acyclic up) (hin : Within up nodes) (ancestor : α) (ha : a ∈ nodes) :
    walk up ancestor (nodes.card + 1) (some a) = true ↔ Descends up a ancestor :=
  walk_of_fuel hcy hin ancestor _ ha
    (Nat.lt_succ_of_le (Finset.card_le_card fun _ hx => (mem_above.mp hx).1))

end Finite

end Mailo.Library.ParentForest
