import Mailo.Library.Table

/-!
# Counting the rows of a table

How many rows satisfy a condition depends only on what each key reads, so a row put under a key
adds what it is worth to what the table without that key counts.
-/

namespace Mailo.Library.Table

variable {κ α : Type}

/-- How many rows satisfy a condition. -/
def count (table : Table κ α) (p : α → Bool) : Nat := table.rows.countP fun row => p row.2

def worth (p : α → Bool) (value : α) : Nat := if p value then 1 else 0

@[simp] theorem count_empty (p : α → Bool) : (empty : Table κ α).count p = 0 := rfl

variable [DecidableEq κ]

variable {a b : Table κ α} {f g : α → α}

/-- Tables that read the same hold the same rows. -/
theorem Same.perm (h : Same a b) : a.rows.Perm b.rows := by
  apply (List.perm_ext_iff_of_nodup a.distinct.of_map b.distinct.of_map).mpr
  rintro ⟨key, value⟩
  rw [mem_rows, mem_rows, h key]

theorem count_same (h : Same a b) (p : α → Bool) : a.count p = b.count p :=
  h.perm.countP_eq _

variable {key : κ} {table : Table κ α}

theorem count_set_new (h : table.get key = none) (value : α) (p : α → Bool) :
    (table.set key value).count p = table.count p + worth p value := by
  rw [count, rows_set_new h, List.countP_append, List.countP_singleton]
  rfl

/-- A row put under a key counts beside the rows under the others. -/
theorem count_set (table : Table κ α) (key : κ) (value : α) (p : α → Bool) :
    (table.set key value).count p = (table.erase key).count p + worth p value := by
  have hnone : (table.erase key).get key = none := by rw [get_erase, if_pos rfl]
  rw [← count_set_new hnone]
  apply count_same
  intro other
  rw [get_set, get_set, get_erase]
  by_cases h : other = key
  · rw [if_pos h, if_pos h]
  · rw [if_neg h, if_neg h, if_neg h]

theorem count_erase {value : α} (h : table.get key = some value) (p : α → Bool) :
    table.count p = (table.erase key).count p + worth p value := by
  rw [← count_set]
  apply count_same
  intro other
  rw [get_set]
  by_cases heq : other = key
  · rw [if_pos heq, heq, h]
  · rw [if_neg heq]

theorem count_erase_none (h : table.get key = none) (p : α → Bool) :
    (table.erase key).count p = table.count p := by
  apply count_same
  intro other
  rw [get_erase]
  by_cases heq : other = key
  · rw [if_pos heq, heq, h]
  · rw [if_neg heq]

/-- An operation on one key, run for some keys, changes each of them once. -/
theorem get_foldl {act : Table κ α → κ → Table κ α} {change : Option α → Option α}
    (hact : ∀ table key other, (act table key).get other =
      if other = key then change (table.get other) else table.get other)
    {keys : List κ} (nodup : keys.Nodup) (table : Table κ α) (other : κ) :
    (keys.foldl act table).get other =
      if other ∈ keys then change (table.get other) else table.get other := by
  induction keys generalizing table with
  | nil => simp
  | cons key rest ih =>
    obtain ⟨hnot, hrest⟩ := List.nodup_cons.mp nodup
    rw [List.foldl_cons, ih hrest, hact]
    by_cases h : other = key
    · rw [if_pos h, h, if_neg hnot, if_pos List.mem_cons_self]
    · simp [h]

theorem modify_congr (h : ∀ value, table.get key = some value → f value = g value) :
    table.modify key f = table.modify key g := by
  apply ext_rows
  apply List.map_congr_left
  rintro ⟨held, value⟩ hrow
  have hget := mem_rows.mp hrow
  by_cases hkey : held = key
  · simp only [if_pos hkey]
    rw [h value (hkey ▸ hget)]
  · simp only [if_neg hkey]

/-- Two changes that agree on the rows they are run for leave one table. -/
theorem foldl_modify_congr {keys : List κ} (nodup : keys.Nodup) (table : Table κ α)
    (h : ∀ key ∈ keys, ∀ value, table.get key = some value → f value = g value) :
    keys.foldl (fun table key => table.modify key f) table =
      keys.foldl (fun table key => table.modify key g) table := by
  induction keys generalizing table with
  | nil => rfl
  | cons key rest ih =>
    obtain ⟨hnot, hrest⟩ := List.nodup_cons.mp nodup
    rw [List.foldl_cons, List.foldl_cons, modify_congr (h key List.mem_cons_self)]
    apply ih hrest
    intro other hother value hvalue
    have hne : other ≠ key := fun heq => hnot (heq ▸ hother)
    rw [get_modify, if_neg hne] at hvalue
    exact h other (.tail _ hother) value hvalue

end Mailo.Library.Table
