import Mathlib.Data.List.Basic
import Mathlib.Order.Basic
import Mailo.Library.Lists

/-!
# Grouping a list

A list is put into groups by a key, in one pass: the groups stand in the order in which their
keys first appear, and each keeps the order of the list.
-/

namespace Mailo.Library.Grouping

variable {α κ : Type} [DecidableEq κ]

/-- An item put into the first group of its key, or into one of its own. -/
def push (key : κ) (x : α) : List (κ × List α) → List (κ × List α)
  | [] => [(key, [x])]
  | (k, group) :: rest =>
    if k = key then (k, group ++ [x]) :: rest else (k, group) :: push key x rest

def pushAll (key : α → κ) (groups : List (κ × List α)) (xs : List α) : List (κ × List α) :=
  xs.foldl (fun groups x => push (key x) x groups) groups

def groupBy (key : α → κ) (xs : List α) : List (κ × List α) := pushAll key [] xs

/-- The groups one after another. -/
def joined (groups : List (κ × List α)) : List α := groups.flatMap Prod.snd

theorem pushAll_cons (key : α → κ) (k : κ) (group : List α) (rest : List (κ × List α))
    (xs : List α) :
    pushAll key ((k, group) :: rest) xs =
      (k, group ++ xs.filter fun x => key x = k) ::
        pushAll key rest (xs.filter fun x => key x ≠ k) := by
  induction xs generalizing group rest with
  | nil => simp [pushAll]
  | cons x xs ih =>
    by_cases hkey : k = key x
    · have hpush : pushAll key ((k, group) :: rest) (x :: xs) =
          pushAll key ((k, group ++ [x]) :: rest) xs := by
        simp [pushAll, push, hkey]
      rw [hpush, ih]
      simp [hkey]
    · have hpush : pushAll key ((k, group) :: rest) (x :: xs) =
          pushAll key ((k, group) :: push (key x) x rest) xs := by
        simp [pushAll, push, hkey]
      have hother : key x ≠ k := Ne.symm hkey
      rw [hpush, ih]
      simp [pushAll, hother]

/-- The first group is that of the first item, and the others are those of what it leaves. -/
theorem groupBy_cons (key : α → κ) (x : α) (xs : List α) :
    groupBy key (x :: xs) =
      (key x, x :: xs.filter fun y => key y = key x) ::
        groupBy key (xs.filter fun y => key y ≠ key x) := by
  have hfirst : groupBy key (x :: xs) = pushAll key [(key x, [x])] xs := rfl
  rw [hfirst, pushAll_cons]
  rfl

/-- Induction along the groups of a list. -/
theorem groups_induction {motive : List α → Prop} (key : α → κ) (nil : motive [])
    (cons : ∀ x xs, motive (xs.filter fun y => key y ≠ key x) → motive (x :: xs))
    (xs : List α) : motive xs := by
  induction hlength : xs.length using Nat.strongRecOn generalizing xs with
  | ind n ih =>
    cases xs with
    | nil => exact nil
    | cons x xs =>
      apply cons
      refine ih _ ?_ _ rfl
      rw [← hlength]
      exact Nat.lt_succ_of_le (List.length_filter_le _ _)

variable {k : κ} {key : α → κ} {xs : List α}

theorem key_mem {group : List α} (h : (k, group) ∈ groupBy key xs) : ∃ x ∈ xs, key x = k := by
  induction xs using groups_induction key with
  | nil => cases h
  | cons x xs ih =>
    rw [groupBy_cons] at h
    rcases List.mem_cons.mp h with hfirst | hrest
    · cases hfirst
      exact ⟨x, .head _, rfl⟩
    · rcases ih hrest with ⟨y, hy, hkey⟩
      exact ⟨y, List.mem_cons_of_mem x (List.mem_of_mem_filter hy), hkey⟩

/-- A group is what the list holds of its key. -/
theorem group_eq {group : List α} (h : (k, group) ∈ groupBy key xs) :
    group = xs.filter fun x => key x = k := by
  induction xs using groups_induction key with
  | nil => cases h
  | cons x xs ih =>
    rw [groupBy_cons] at h
    rcases List.mem_cons.mp h with hfirst | hrest
    · cases hfirst
      simp
    · rcases key_mem hrest with ⟨y, hy, hk⟩
      have hne : k ≠ key x := by
        rw [← hk]
        simpa using (List.mem_filter.mp hy).2
      rw [ih hrest, List.filter_filter, List.filter_cons_of_neg (by simpa using Ne.symm hne)]
      apply List.filter_congr
      intro z _
      by_cases hz : key z = k
      · simp [hz, hne]
      · simp [hz]

theorem joined_cons (key : α → κ) (x : α) (xs : List α) :
    joined (groupBy key (x :: xs)) =
      x :: xs.filter (fun y => key y = key x) ++
        joined (groupBy key (xs.filter fun y => key y ≠ key x)) := by
  rw [groupBy_cons]
  rfl

theorem joined_of_one (h : ∀ x ∈ xs, key x = k) :
    joined (groupBy key xs) = xs := by
  cases xs with
  | nil => rfl
  | cons x xs =>
    have hx := h x (.head _)
    have hrest : ∀ y ∈ xs, key y = key x := fun y hy =>
      (h y (List.mem_cons_of_mem x hy)).trans hx.symm
    have hall : xs.filter (fun y => key y = key x) = xs := by
      rw [List.filter_eq_self]
      intro y hy
      simpa using hrest y hy
    have hnone : xs.filter (fun y => key y ≠ key x) = [] := by
      rw [List.filter_eq_nil_iff]
      intro y hy
      simpa using hrest y hy
    rw [joined_cons, hall, hnone]
    simp [joined, groupBy, pushAll]

theorem joined_perm (key : α → κ) (xs : List α) : (joined (groupBy key xs)).Perm xs := by
  induction xs using groups_induction key with
  | nil => exact .nil
  | cons x xs ih =>
    rw [joined_cons, List.cons_append]
    apply List.Perm.cons
    refine (ih.append_left _).trans ?_
    simpa using List.filter_append_perm (fun y => decide (key y = key x)) xs

/-- What goes by the key may be asked of the list or of its groups. -/
theorem filter_joined {p : α → Bool} (hp : ∀ x y, key x = key y → p x = p y) (xs : List α) :
    (joined (groupBy key xs)).filter p = joined (groupBy key (xs.filter p)) := by
  induction xs using groups_induction key with
  | nil => rfl
  | cons x xs ih =>
    rw [joined_cons, List.filter_append, ih, List.filter_filter]
    cases hx : p x with
    | true =>
      rw [List.filter_cons_of_pos hx, List.filter_cons_of_pos hx, joined_cons,
        List.filter_filter, List.filter_filter, List.filter_filter]
      simp only [Bool.and_comm]
    | false =>
      have hgroup : (x :: xs.filter fun y => key y = key x).filter p = [] := by
        rw [List.filter_eq_nil_iff]
        intro y hy
        rcases List.mem_cons.mp hy with rfl | hy
        · simp [hx]
        · have hkey : key y = key x := by simpa using (List.mem_filter.mp hy).2
          simp [hp y x hkey, hx]
      have hrest : xs.filter (fun y => p y && decide (key y ≠ key x)) = xs.filter p := by
        apply List.filter_congr
        intro y _
        by_cases hkey : key y = key x
        · simp [hp y x hkey, hx]
        · simp [hkey]
      rw [hgroup, hrest, List.filter_cons_of_neg (by simp [hx])]
      rfl

/-- What the list holds of one key stands in its groups as it does in the list. -/
theorem filter_joined_key (key : α → κ) (k : κ) (xs : List α) :
    (joined (groupBy key xs)).filter (fun x => key x = k) = xs.filter fun x => key x = k := by
  rw [filter_joined (by intro x y h; simp [h])]
  apply joined_of_one (k := k)
  intro x hx
  simpa using (List.mem_filter.mp hx).2

def Gathered : List κ → Prop
  | [] => True
  | x :: xs => (x ∈ xs → xs.head? = some x) ∧ Gathered xs

theorem joined_new {x : κ} {xs : List κ} (h : x ∉ xs) :
    joined (groupBy id (x :: xs)) = x :: joined (groupBy id xs) := by
  have hnone : xs.filter (fun y => id y = id x) = [] := by
    rw [List.filter_eq_nil_iff]
    intro y hy
    have hne : y ≠ x := fun heq => h (heq ▸ hy)
    simpa using hne
  have hall : xs.filter (fun y => id y ≠ id x) = xs := by
    rw [List.filter_eq_self]
    intro y hy
    have hne : y ≠ x := fun heq => h (heq ▸ hy)
    simpa using hne
  rw [joined_cons, hnone, hall]
  rfl

theorem joined_again (x : κ) (xs : List κ) :
    joined (groupBy id (x :: x :: xs)) = x :: joined (groupBy id (x :: xs)) := by
  simp [joined_cons]

/-- Putting equal items together leaves a list as it was where they stood together. -/
theorem joined_id_iff (xs : List κ) : joined (groupBy id xs) = xs ↔ Gathered xs := by
  induction xs with
  | nil => simp [Gathered, joined, groupBy, pushAll]
  | cons x xs ih =>
    by_cases hx : x ∈ xs
    · cases xs with
      | nil => cases hx
      | cons y ys =>
        by_cases hxy : y = x
        · rw [hxy] at ih ⊢
          rw [joined_again]
          simp [Gathered, ih]
        · have hgroup : ∃ rest, (y :: ys).filter (fun z => id z = id x) = x :: rest := by
            cases hfilter : (y :: ys).filter fun z => id z = id x with
            | nil =>
              rw [List.filter_eq_nil_iff] at hfilter
              exact absurd (hfilter x hx) (by simp)
            | cons z rest =>
              have hz : z ∈ (y :: ys).filter fun z => id z = id x := by
                rw [hfilter]
                exact .head _
              have hzx : z = x := by simpa using (List.mem_filter.mp hz).2
              exact ⟨rest, by rw [hzx]⟩
          rcases hgroup with ⟨rest, hgroup⟩
          rw [joined_cons, hgroup]
          constructor
          · intro h
            simp only [List.cons_append, List.cons.injEq, true_and] at h
            exact absurd h.1.symm hxy
          · intro h
            have hhead := h.1 hx
            simp only [List.head?_cons, Option.some.injEq] at hhead
            exact absurd hhead hxy
    · rw [joined_new hx]
      simp [Gathered, ih, hx]

end Mailo.Library.Grouping
