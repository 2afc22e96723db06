import Mathlib.Data.List.Nodup
import Mailo.Library.Lists

/-!
# Keyed tables

A table is a list of rows under pairwise distinct keys. The operations are the ones a database
table has: read one row, insert or replace it, change or delete the rows that match. Two tables
say the same when every key reads the same.
-/

namespace Mailo.Library

/-- Rows under keys, no key twice. -/
structure Table (κ α : Type) where
  rows : List (κ × α)
  distinct : (rows.map Prod.fst).Nodup

namespace Table

variable {κ α β : Type}

instance [DecidableEq κ] [DecidableEq α] : DecidableEq (Table κ α) := fun a b =>
  decidable_of_iff (a.rows = b.rows) <| by
    cases a; cases b; simp

def empty : Table κ α := ⟨[], List.nodup_nil⟩

def keys (table : Table κ α) : List κ := table.rows.map Prod.fst

def values (table : Table κ α) : List α := table.rows.map Prod.snd

/-- `UPDATE`: every row rewritten, its key kept. -/
def mapRows (table : Table κ α) (f : κ → α → β) : Table κ β :=
  ⟨table.rows.map fun row => (row.1, f row.1 row.2), by
    simpa [List.map_map, Function.comp_def] using table.distinct⟩

/-- `DELETE`: only the rows that satisfy `p` stay. -/
def filter (table : Table κ α) (p : κ → α → Bool) : Table κ α :=
  ⟨table.rows.filter fun row => p row.1 row.2,
    table.distinct.sublist (List.filter_sublist.map Prod.fst)⟩

theorem ext_rows {a b : Table κ α} (h : a.rows = b.rows) : a = b := by
  cases a
  cases b
  cases h
  rfl

variable [DecidableEq κ]

/-- The row a list of rows holds under a key, the first of them. -/
def find (key : κ) : List (κ × α) → Option α
  | [] => none
  | row :: rest => if row.1 = key then some row.2 else find key rest

def get (table : Table κ α) (key : κ) : Option α := find key table.rows

def contains (table : Table κ α) (key : κ) : Bool := (table.get key).isSome

variable {key : κ} {rows : List (κ × α)} {value : α} {table : Table κ α}

theorem find_eq_none :
    find key rows = none ↔ key ∉ rows.map Prod.fst := by
  induction rows with
  | nil => simp [find]
  | cons row rest ih =>
    by_cases h : row.1 = key
    · simp [find, h]
    · simp only [find, h, if_false, ih, List.map_cons, List.mem_cons, not_or]
      exact ⟨fun hrest => ⟨fun heq => h heq.symm, hrest⟩, fun hboth => hboth.2⟩

theorem mem_of_find (h : find key rows = some value) : (key, value) ∈ rows := by
  induction rows with
  | nil => simp [find] at h
  | cons row rest ih =>
    by_cases hkey : row.1 = key
    · rw [find, if_pos hkey, Option.some.injEq] at h
      subst hkey h
      exact .head _
    · rw [find, if_neg hkey] at h
      exact .tail _ (ih h)

theorem find_of_mem (distinct : (rows.map Prod.fst).Nodup) (h : (key, value) ∈ rows) :
    find key rows = some value := by
  induction rows with
  | nil => simp at h
  | cons row rest ih =>
    rw [List.map_cons, List.nodup_cons] at distinct
    rcases List.mem_cons.mp h with rfl | hrest
    · simp [find]
    · have hne : row.1 ≠ key := by
        intro heq
        exact distinct.1 (heq ▸ List.mem_map_of_mem (f := Prod.fst) hrest)
      rw [find, if_neg hne]
      exact ih distinct.2 hrest

theorem mem_rows :
    (key, value) ∈ table.rows ↔ table.get key = some value :=
  ⟨find_of_mem table.distinct, mem_of_find⟩

theorem mem_keys :
    key ∈ table.keys ↔ ∃ value, table.get key = some value := by
  unfold keys
  constructor
  · intro h
    obtain ⟨⟨_, value⟩, hmem, rfl⟩ := List.mem_map.mp h
    exact ⟨value, mem_rows.mp hmem⟩
  · rintro ⟨value, h⟩
    exact List.mem_map_of_mem (f := Prod.fst) (mem_rows.mpr h)

theorem get_eq_none :
    table.get key = none ↔ key ∉ table.keys := find_eq_none

@[simp] theorem get_empty (key : κ) : (empty : Table κ α).get key = none := rfl

theorem contains_iff :
    table.contains key = true ↔ ∃ value, table.get key = some value := by
  rw [contains, Option.isSome_iff_exists]

theorem find_map (f : κ → α → β) (key : κ) (rows : List (κ × α)) :
    find key (rows.map fun row => (row.1, f row.1 row.2)) = (find key rows).map (f key) := by
  induction rows with
  | nil => rfl
  | cons row rest ih =>
    by_cases h : row.1 = key
    · simp [find, h]
    · simp [find, h, ih]

@[simp] theorem get_mapRows (table : Table κ α) (f : κ → α → β) (key : κ) :
    (table.mapRows f).get key = (table.get key).map (f key) := find_map f key table.rows

@[simp] theorem get_filter (table : Table κ α) (p : κ → α → Bool) (key : κ) :
    (table.filter p).get key = (table.get key).filter (p key) := by
  cases h : table.get key with
  | none =>
    rw [Option.filter_none, get_eq_none]
    intro hmem
    refine get_eq_none.mp h ?_
    exact (List.filter_sublist.map Prod.fst).subset hmem
  | some value =>
    have hmem := mem_rows.mpr h
    cases hp : p key value with
    | true =>
      rw [Option.filter_some, hp, if_pos rfl]
      exact mem_rows.mp (List.mem_filter.mpr ⟨hmem, hp⟩)
    | false =>
      rw [Option.filter_some, hp, if_neg Bool.false_ne_true, get_eq_none]
      intro hin
      obtain ⟨found, hfound⟩ := mem_keys.mp hin
      obtain ⟨hrow, hkept⟩ := List.mem_filter.mp (mem_rows.mpr hfound)
      have : found = value := Option.some.inj ((mem_rows.mp hrow).symm.trans h)
      rw [this] at hkept
      rw [hp] at hkept
      exact Bool.false_ne_true hkept

/-- One row changed, where it is held. -/
def modify (table : Table κ α) (key : κ) (f : α → α) : Table κ α :=
  table.mapRows fun held value => if held = key then f value else value

@[simp] theorem get_modify (table : Table κ α) (key other : κ) (f : α → α) :
    (table.modify key f).get other =
      if other = key then (table.get other).map f else table.get other := by
  rw [modify, get_mapRows]
  by_cases h : other = key
  · simp [h]
  · simp [h]

theorem modify_modify (table : Table κ α) (key : κ) (f g : α → α) :
    (table.modify key f).modify key g = table.modify key fun value => g (f value) := by
  refine ext_rows ?_
  simp only [modify, mapRows, List.map_map]
  refine List.map_congr_left fun row _ => ?_
  by_cases h : row.1 = key <;> simp [h]

theorem modify_id (table : Table κ α) (key : κ) : table.modify key id = table := by
  refine ext_rows ?_
  simp [modify, mapRows]

def erase (table : Table κ α) (key : κ) : Table κ α :=
  table.filter fun held _ => !decide (held = key)

@[simp] theorem get_erase (table : Table κ α) (key other : κ) :
    (table.erase key).get other = if other = key then none else table.get other := by
  by_cases h : other = key <;> cases hget : table.get other <;> simp [erase, h, hget]

/-- Insert, or replace what is held under the key. -/
def set (table : Table κ α) (key : κ) (value : α) : Table κ α :=
  if h : key ∈ table.keys then table.modify key fun _ => value
  else ⟨table.rows ++ [(key, value)], by
    rw [List.map_append, List.nodup_append]
    refine ⟨table.distinct, by simp, ?_⟩
    intro a ha b hb heq
    simp only [List.map_cons, List.map_nil, List.mem_singleton] at hb
    exact h (hb ▸ heq ▸ ha)⟩

def insertNew (table : Table κ α) (key : κ) (value : α) : Table κ α :=
  if table.contains key then table else table.set key value

theorem find_append (key : κ) (rows more : List (κ × α)) :
    find key (rows ++ more) = (find key rows).or (find key more) := by
  induction rows with
  | nil => simp [find]
  | cons row rest ih =>
    by_cases h : row.1 = key
    · simp [find, h]
    · simp [find, h, ih]

@[simp] theorem get_set (table : Table κ α) (key other : κ) (value : α) :
    (table.set key value).get other = if other = key then some value else table.get other := by
  unfold set
  split
  · rename_i h
    rw [get_modify]
    by_cases heq : other = key
    · obtain ⟨held, hget⟩ := mem_keys.mp h
      simp [heq, hget]
    · simp [heq]
  · rename_i h
    change find other (table.rows ++ [(key, value)]) = _
    rw [find_append]
    by_cases heq : other = key
    · have hnone : find key table.rows = none := find_eq_none.mpr h
      simp [heq, hnone, find]
    · have hne : ¬ key = other := fun h => heq h.symm
      simp [find, hne, heq, get]

/-- A row under a new key goes last. -/
theorem rows_set_new (h : table.get key = none) (value : α) :
    (table.set key value).rows = table.rows ++ [(key, value)] := by
  unfold set
  rw [dif_neg (get_eq_none.mp h)]

@[simp] theorem get_insertNew (table : Table κ α) (key other : κ) (value : α) :
    (table.insertNew key value).get other =
      if other = key then some ((table.get key).getD value) else table.get other := by
  unfold insertNew
  cases h : table.get key with
  | none =>
    have hnot : table.contains key = false := by simp [contains, h]
    by_cases heq : other = key <;> simp [hnot, heq]
  | some held =>
    have hin : table.contains key = true := by simp [contains, h]
    by_cases heq : other = key <;> simp [hin, heq, h]

/-- Every key reads the same. -/
def Same (a b : Table κ α) : Prop := ∀ key, a.get key = b.get key

end Table

end Mailo.Library
