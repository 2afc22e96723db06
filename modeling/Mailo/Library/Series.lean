import Mathlib.Data.List.Basic
import Mailo.Library.Lists

/-!
# Numbered rows

A series is a table whose key the table itself hands out: every row added gets a number above all
numbers handed out before, and a number is never handed out twice. The rows therefore stand in the
order they were added.
-/

namespace Mailo.Library

/-- Rows in the order they were added, `next` the number of the next one. -/
structure Series (α : Type) where
  next : Nat
  rows : List (Nat × α)
  ascending : (rows.map Prod.fst).Pairwise (· < ·)
  below : ∀ id ∈ rows.map Prod.fst, id < next

namespace Series

variable {α β : Type}

def empty : Series α := ⟨1, [], List.Pairwise.nil, by simp⟩

def ids (series : Series α) : List Nat := series.rows.map Prod.fst

def values (series : Series α) : List α := series.rows.map Prod.snd

def get (series : Series α) (id : Nat) : Option α :=
  (series.rows.find? fun row => row.1 = id).map Prod.snd

/-- `INSERT`: the new row goes last, under the next number. -/
def push (series : Series α) (value : α) : Series α where
  next := series.next + 1
  rows := series.rows ++ [(series.next, value)]
  ascending := by
    rw [List.map_append, List.pairwise_append]
    refine ⟨series.ascending, by simp, ?_⟩
    intro a ha b hb
    simp only [List.map_cons, List.map_nil, List.mem_singleton] at hb
    exact hb ▸ series.below a ha
  below := by
    intro id hid
    rw [List.map_append, List.mem_append] at hid
    rcases hid with hid | hid
    · exact Nat.lt_succ_of_lt (series.below id hid)
    · simp only [List.map_cons, List.map_nil, List.mem_singleton] at hid
      omega

/-- `UPDATE`: every row rewritten, its number kept. -/
def mapRows (series : Series α) (f : Nat → α → α) : Series α where
  next := series.next
  rows := series.rows.map fun row => (row.1, f row.1 row.2)
  ascending := by
    simpa [List.map_map, Function.comp_def] using series.ascending
  below := by
    simpa [List.map_map, Function.comp_def] using series.below

/-- `DELETE`: only the rows that satisfy `p` stay. -/
def filter (series : Series α) (p : Nat → α → Bool) : Series α where
  next := series.next
  rows := series.rows.filter fun row => p row.1 row.2
  ascending := series.ascending.sublist (List.filter_sublist.map Prod.fst)
  below id hid := series.below id ((List.filter_sublist.map Prod.fst).subset hid)

def erase (series : Series α) (id : Nat) : Series α := series.filter fun held _ => held != id

def modify (series : Series α) (id : Nat) (f : α → α) : Series α :=
  series.mapRows fun held value => if held = id then f value else value

/-- The rows added before a number. -/
def before (series : Series α) (id : Nat) : List α :=
  (series.rows.filter fun row => row.1 < id).map Prod.snd

theorem nodup (series : Series α) : series.ids.Nodup :=
  series.ascending.imp fun h => Nat.ne_of_lt h

theorem ext_rows {a b : Series α} (next : a.next = b.next) (rows : a.rows = b.rows) : a = b := by
  cases a
  cases b
  cases next
  cases rows
  rfl

variable {id : Nat} {series : Series α} {value : α}

theorem mem_rows :
    (id, value) ∈ series.rows ↔ series.get id = some value := by
  have hrows : ∀ rows : List (Nat × α), (rows.map Prod.fst).Nodup →
      ((id, value) ∈ rows ↔ (rows.find? fun row => row.1 = id).map Prod.snd = some value) := by
    intro rows
    induction rows with
    | nil => simp
    | cons row rest ih =>
      intro hnodup
      rw [List.map_cons, List.nodup_cons] at hnodup
      by_cases h : row.1 = id
      · have hrest : (id, value) ∉ rest := fun hmem =>
          hnodup.1 (h ▸ List.mem_map_of_mem (f := Prod.fst) hmem)
        simp only [List.mem_cons, hrest, or_false, List.find?_cons_of_pos, h, decide_true,
          Option.map_some, Option.some.injEq]
        constructor
        · intro heq
          rw [← heq]
        · intro heq
          rw [← heq, ← h]
      · have hne : (id, value) ≠ row := fun heq => h (by rw [← heq])
        simp only [List.mem_cons, hne, false_or, h, decide_false, Bool.false_eq_true,
          not_false_eq_true, List.find?_cons_of_neg]
        exact ih hnodup.2
  exact hrows series.rows series.nodup

theorem mem_values :
    value ∈ series.values ↔ ∃ id, series.get id = some value := by
  simp only [values, List.mem_map, ← mem_rows]
  constructor
  · rintro ⟨⟨id, _⟩, hmem, rfl⟩
    exact ⟨id, hmem⟩
  · rintro ⟨id, hmem⟩
    exact ⟨(id, value), hmem, rfl⟩

theorem mem_ids :
    id ∈ series.ids ↔ ∃ value, series.get id = some value := by
  simp only [ids, List.mem_map, ← mem_rows]
  constructor
  · rintro ⟨⟨_, value⟩, hmem, rfl⟩
    exact ⟨value, hmem⟩
  · rintro ⟨value, hmem⟩
    exact ⟨(id, value), hmem, rfl⟩

theorem get_lt_next (h : series.get id = some value) : id < series.next :=
  series.below id (mem_ids.mpr ⟨value, h⟩)

@[simp] theorem get_empty (id : Nat) : (empty : Series α).get id = none := rfl

@[simp] theorem values_empty : (empty : Series α).values = [] := rfl

@[simp] theorem values_push (series : Series α) (value : α) :
    (series.push value).values = series.values ++ [value] := by
  simp [values, push]

@[simp] theorem get_push (series : Series α) (value : α) (id : Nat) :
    (series.push value).get id = if id = series.next then some value else series.get id := by
  have hfind : (series.push value).get id =
      (series.get id).or (if series.next = id then some value else none) := by
    unfold get push
    rw [List.find?_append]
    cases series.rows.find? fun row => row.1 = id with
    | some row => rfl
    | none => by_cases h : series.next = id <;> simp [h]
  rw [hfind]
  by_cases h : id = series.next
  · subst h
    have hnone : series.get series.next = none := by
      cases hget : series.get series.next with
      | none => rfl
      | some held => exact absurd (get_lt_next hget) (Nat.lt_irrefl _)
    simp [hnone]
  · have hne : ¬ series.next = id := fun heq => h heq.symm
    simp [h, hne]

@[simp] theorem get_mapRows (series : Series α) (f : Nat → α → α) (id : Nat) :
    (series.mapRows f).get id = (series.get id).map (f id) := by
  have hrows : ∀ rows : List (Nat × α),
      ((rows.map fun row => (row.1, f row.1 row.2)).find? fun row => row.1 = id).map Prod.snd =
        ((rows.find? fun row => row.1 = id).map Prod.snd).map (f id) := by
    intro rows
    induction rows with
    | nil => rfl
    | cons row rest ih =>
      by_cases h : row.1 = id
      · simp [h]
      · simpa [h] using ih
  exact hrows series.rows

@[simp] theorem get_modify (series : Series α) (id other : Nat) (f : α → α) :
    (series.modify id f).get other =
      if other = id then (series.get other).map f else series.get other := by
  rw [modify, get_mapRows]
  by_cases h : other = id <;> simp [h]

@[simp] theorem get_filter (series : Series α) (p : Nat → α → Bool) (id : Nat) :
    (series.filter p).get id = (series.get id).filter (p id) := by
  rw [Option.ext_iff]
  intro value
  rw [← Option.mem_def, ← Option.mem_def, Option.mem_filter_iff, Option.mem_def, Option.mem_def,
    ← mem_rows, ← mem_rows]
  exact List.mem_filter

@[simp] theorem get_erase (series : Series α) (id other : Nat) :
    (series.erase id).get other = if other = id then none else series.get other := by
  by_cases h : other = id <;> cases hget : series.get other <;> simp [erase, h, hget]

theorem erase_mapRows (series : Series α) (f : Nat → α → α) (id : Nat) :
    (series.mapRows f).erase id = (series.erase id).mapRows f :=
  ext_rows rfl List.filter_map

/-- What every row says, row after row, unchanged by a rewriting that leaves it so. -/
theorem flatMap_values_mapRows (series : Series α) {f : Nat → α → α} {g : α → List β}
    (h : ∀ id value, series.get id = some value → g (f id value) = g value) :
    (series.mapRows f).values.flatMap g = series.values.flatMap g := by
  have hrows : ∀ row ∈ series.rows, g (f row.1 row.2) = g row.2 := fun row hrow =>
    h row.1 row.2 (mem_rows.mp hrow)
  unfold values mapRows
  simp only [List.map_map, List.flatMap_map]
  exact List.flatMap_congr hrows

/-- Deleting rows that say nothing changes nothing of what the rows say. -/
theorem flatMap_values_filter (series : Series α) {p : Nat → α → Bool} {g : α → List β}
    (h : ∀ id value, series.get id = some value → p id value = false → g value = []) :
    (series.filter p).values.flatMap g = series.values.flatMap g := by
  have hrows : ∀ row ∈ series.rows, p row.1 row.2 = false → g row.2 = [] := fun row hrow =>
    h row.1 row.2 (mem_rows.mp hrow)
  have hlist : ∀ rows : List (Nat × α), (∀ row ∈ rows, p row.1 row.2 = false → g row.2 = []) →
      ((rows.filter fun row => p row.1 row.2).map Prod.snd).flatMap g =
        (rows.map Prod.snd).flatMap g := by
    intro rows hsilent
    induction rows with
    | nil => rfl
    | cons row rest ih =>
      have hrest := ih fun r hr => hsilent r (.tail _ hr)
      cases hp : p row.1 row.2 with
      | true => simp [hp, hrest]
      | false => simp [hp, hrest, hsilent row List.mem_cons_self hp]
  exact hlist series.rows hrows

end Series

end Mailo.Library
