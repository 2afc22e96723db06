import Mailo.Library.Tally

/-!
# Rows moved to other keys, one after another

A table whose values say their own key is rewritten a value at a time: each is taken from its key
and put under its new one. That is the same as rewriting all of them at once exactly where no
value is put over one that is still there.
-/

namespace Mailo.Library.Table

variable {κ α : Type} [DecidableEq κ]

/-- Each value is held under the key it says. -/
def Keyed (key : α → κ) (table : Table κ α) : Prop :=
  ∀ held value, table.get held = some value → key value = held

/-- A value taken from its key and put, changed, under the key it then says. -/
def carry (key : α → κ) (change : α → α) (table : Table κ α) (value : α) : Table κ α :=
  (table.erase (key value)).set (key (change value)) (change value)

/-- The values of a kind. -/
def those (table : Table κ α) (p : α → Bool) : List α := table.values.filter p

variable {key : α → κ} {change : α → α} {table : Table κ α}

theorem Keyed.set (h : Keyed key table) (value : α) :
    Keyed key (table.set (key value) value) := by
  intro held other hget
  rw [get_set] at hget
  split at hget
  · rename_i heq
    cases hget
    exact heq.symm
  · exact h held other hget

theorem Keyed.erase (h : Keyed key table) (gone : κ) : Keyed key (table.erase gone) := by
  intro held other hget
  rw [get_erase] at hget
  split at hget
  · cases hget
  · exact h held other hget

theorem Keyed.carry (h : Keyed key table) (value : α) :
    Keyed key (table.carry key change value) :=
  (h.erase (key value)).set (change value)

variable {p : α → Bool} {value held : α}

theorem mem_those (h : Keyed key table) :
    value ∈ table.those p ↔ table.get (key value) = some value ∧ p value = true := by
  rw [those, List.mem_filter]
  apply and_congr_left
  intro _
  constructor
  · intro hvalue
    obtain ⟨⟨held, value⟩, hrow, rfl⟩ := List.mem_map.mp hvalue
    have hget := mem_rows.mp hrow
    rw [h held value hget]
    exact hget
  · intro hget
    exact List.mem_map.mpr ⟨(key value, value), mem_rows.mpr hget, rfl⟩

theorem keys_those_nodup (h : Keyed key table) (p : α → Bool) :
    ((table.those p).map key).Nodup := by
  have hall : table.values.map key = table.keys := by
    rw [values, keys, List.map_map]
    apply List.map_congr_left
    rintro ⟨held, value⟩ hrow
    exact h held value (mem_rows.mp hrow)
  have hnodup : (table.values.map key).Nodup := hall ▸ table.distinct
  exact hnodup.sublist (List.filter_sublist.map key)

omit [DecidableEq κ] in
theorem length_those (table : Table κ α) (p : α → Bool) :
    (table.those p).length = table.count p := by
  rw [those, values, List.filter_map, List.length_map, ← List.countP_eq_length_filter]
  rfl

theorem those_set_new (hnew : table.get (key value) = none) (hp : p value = true) :
    (table.set (key value) value).those p = table.those p ++ [value] := by
  rw [those, values, rows_set_new hnew, List.map_append, List.filter_append, List.map_singleton,
    List.filter_singleton, hp]
  rfl

theorem those_set_held (h : Keyed key table) (hheld : table.get (key value) = some held)
    (hp : ∀ other, key other = key value → p other = p value) :
    (table.set (key value) value).those p =
      (table.those p).map fun other => if key other = key value then value else other := by
  have hin : key value ∈ table.keys := mem_keys.mpr ⟨held, hheld⟩
  have hvalues : (table.set (key value) value).values =
      table.values.map fun other => if key other = key value then value else other := by
    rw [set, dif_pos hin, modify, values, mapRows, List.map_map, values, List.map_map]
    apply List.map_congr_left
    rintro ⟨slot, other⟩ hrow
    have hkey := h slot other (mem_rows.mp hrow)
    simp only [Function.comp_apply, hkey]
  rw [those, hvalues, List.filter_map]
  congr 1
  apply List.filter_congr
  intro other _
  rw [Function.comp_apply]
  split
  · rename_i heq
    exact (hp other heq).symm
  · rfl

theorem those_erase (h : Keyed key table) (gone : κ) (p : α → Bool) :
    (table.erase gone).those p = (table.those p).filter fun value => key value ≠ gone := by
  rw [those, those, List.filter_filter, values, erase, filter, List.filter_map, values,
    List.filter_map, List.filter_filter]
  congr 1
  apply List.filter_congr
  rintro ⟨held, value⟩ hrow
  have hkey := h held value (mem_rows.mp hrow)
  simp only [Function.comp_apply, hkey, ne_eq, decide_not, Bool.and_comm]

theorem get_carry (table : Table κ α) (value : α) (other : κ) :
    (table.carry key change value).get other =
      if other = key (change value) then some (change value)
      else if other = key value then none else table.get other := by
  rw [carry, get_set, get_erase]

variable {items rest : List α}

theorem carry_free (h : Keyed key table) (hthose : (table.those p).Perm (rest ++ value :: items))
    (hp : p (change value) = true) (hfree : key (change value) ∉ (rest ++ items).map key) :
    ((table.carry key change value).those p).Perm ((rest ++ [change value]) ++ items) := by
  have hperm : (rest ++ value :: items).Perm (value :: (rest ++ items)) := List.perm_middle
  have hkeys := ((hthose.trans hperm).map key).nodup (keys_those_nodup h p)
  rw [List.map_cons, List.nodup_cons] at hkeys
  have hafter : (change value :: (rest ++ items)).Perm ((rest ++ [change value]) ++ items) := by
    rw [List.append_assoc]
    exact List.perm_middle.symm
  refine List.Perm.trans ?_ hafter
  have hnew : ((change value :: (rest ++ items)).map key).Nodup :=
    List.nodup_cons.mpr ⟨hfree, hkeys.2⟩
  apply (List.perm_ext_iff_of_nodup (keys_those_nodup (h.carry value) p).of_map hnew.of_map).mpr
  intro other
  rw [mem_those (h.carry value), get_carry, List.mem_cons]
  have hmem : other ∈ rest ++ items → key other ∈ (rest ++ items).map key :=
    fun hother => List.mem_map_of_mem hother
  by_cases hchanged : key other = key (change value)
  · rw [if_pos hchanged, Option.some.injEq]
    have hnot : other ∉ rest ++ items := fun hother => hfree (hchanged ▸ hmem hother)
    constructor
    · intro hboth
      exact Or.inl hboth.1.symm
    · rintro (rfl | hother)
      · exact ⟨rfl, hp⟩
      · exact absurd hother hnot
  · rw [if_neg hchanged]
    have hne : other ≠ change value := fun heq => hchanged (heq ▸ rfl)
    by_cases hold : key other = key value
    · rw [if_pos hold]
      have hnot : other ∉ rest ++ items := fun hother => hkeys.1 (hold ▸ hmem hother)
      simp [hne, hnot]
    · rw [if_neg hold, ← mem_those h, (hthose.trans hperm).mem_iff, List.mem_cons]
      have hother : other ≠ value := fun heq => hold (heq ▸ rfl)
      simp [hne, hother]

theorem worth_true (h : p value = true) : worth p value = 1 :=
  if_pos h

theorem count_erase_le (table : Table κ α) (gone : κ) (p : α → Bool) :
    (table.erase gone).count p ≤ table.count p := by
  cases h : table.get gone with
  | none => exact Nat.le_of_eq (count_erase_none h p)
  | some value =>
    rw [count_erase h]
    omega

theorem count_carry_le (hheld : table.get (key value) = some held) (hp : p held = true)
    (hchange : p (change value) = true) :
    (table.carry key change value).count p ≤ table.count p := by
  rw [carry, count_set, count_erase hheld, worth_true hp, worth_true hchange]
  have := count_erase_le (table.erase (key value)) (key (change value)) p
  omega

theorem count_carry_lt {other : α} (hheld : table.get (key value) = some held) (hp : p held = true)
    (hchange : p (change value) = true)
    (hover : (table.erase (key value)).get (key (change value)) = some other)
    (hother : p other = true) :
    (table.carry key change value).count p < table.count p := by
  rw [carry, count_set, count_erase hheld, worth_true hp, worth_true hchange,
    count_erase hover, worth_true hother]
  omega

/-! ## All of them -/

/-- No value is put over one that stays, was moved before it, or is still to be moved. -/
def Clear (key : α → κ) (change : α → α) : List α → List α → Prop
  | _, [] => True
  | rest, value :: items =>
    key (change value) ∉ (rest ++ items).map key ∧ Clear key change (rest ++ [change value]) items

section Run

variable {p : α → Bool} (respects : ∀ a b, key a = key b → p a = p b)
  (keeps : ∀ value, p value = true → p (change value) = true)

include respects keeps

theorem count_carryAll_le {items : List α} (nodup : (items.map key).Nodup)
    (hitems : ∀ value ∈ items, p value = true) (hkeyed : Keyed key table)
    (hheld : ∀ value ∈ items, table.get (key value) ≠ none) :
    (items.foldl (carry key change) table).count p ≤ table.count p := by
  induction items generalizing table with
  | nil => exact Nat.le_refl _
  | cons value items ih =>
    rw [List.map_cons, List.nodup_cons] at nodup
    have hp := hitems value (.head _)
    obtain ⟨held, hget⟩ := Option.ne_none_iff_exists'.mp (hheld value (.head _))
    have hone : (table.carry key change value).count p ≤ table.count p := by
      apply count_carry_le hget _ (keeps value hp)
      rw [respects held value (hkeyed _ _ hget), hp]
    apply Nat.le_trans _ hone
    apply ih nodup.2 (fun other hother => hitems other (.tail _ hother))
      (hkeyed.carry value)
    intro other hother
    have hne : key other ≠ key value := by
      intro heq
      exact nodup.1 (heq ▸ List.mem_map_of_mem hother)
    rw [get_carry, if_neg hne]
    split
    · exact Option.some_ne_none _
    · exact hheld other (.tail _ hother)

/-- Moved one after another, the values are all there exactly where none is put over another. -/
theorem those_carryAll {items rest : List α} (hkeyed : Keyed key table)
    (hthose : (table.those p).Perm (rest ++ items)) :
    ((items.foldl (carry key change) table).those p).Perm (rest ++ items.map change) ↔
      Clear key change rest items := by
  induction items generalizing rest table with
  | nil => exact iff_of_true hthose trivial
  | cons value items ih =>
    have hmem : ∀ other ∈ rest ++ value :: items,
        table.get (key other) = some other ∧ p other = true :=
      fun other hother => (mem_those hkeyed).mp (hthose.mem_iff.mpr hother)
    have hvalue : value ∈ rest ++ value :: items := List.mem_append_right _ (.head _)
    have hitems : ∀ other ∈ items, other ∈ rest ++ value :: items :=
      fun other hother => List.mem_append_right _ (.tail _ hother)
    have hkeys := (hthose.map key).nodup (keys_those_nodup hkeyed p)
    rw [List.map_append, List.nodup_append, List.map_cons, List.nodup_cons] at hkeys
    have hchange := keeps value (hmem value hvalue).2
    rw [List.foldl_cons, Clear]
    by_cases hfree : key (change value) ∉ (rest ++ items).map key
    · have hone := carry_free hkeyed hthose hchange hfree
      have hrest := ih (hkeyed.carry value) hone
      rw [List.append_assoc] at hrest
      rw [List.map_cons, and_iff_right hfree]
      exact hrest
    · apply iff_of_false
      · intro hperm
        obtain ⟨other, hother, heq⟩ := List.mem_map.mp (not_not.mp hfree)
        have hin : other ∈ rest ++ value :: items := by
          rcases List.mem_append.mp hother with h | h
          · exact List.mem_append_left _ h
          · exact hitems other h
        have hne : key other ≠ key value := by
          intro hsame
          rcases List.mem_append.mp hother with h | h
          · exact hkeys.2.2 _ (List.mem_map_of_mem h) _ (.head _) hsame
          · exact hkeys.2.1.1 (hsame ▸ List.mem_map_of_mem h)
        have hover : (table.erase (key value)).get (key (change value)) = some other := by
          rw [get_erase, ← heq, if_neg hne]
          exact (hmem other hin).1
        have hlt := count_carry_lt (hmem value hvalue).1 (hmem value hvalue).2 hchange hover
          (hmem other hin).2
        have hle : (items.foldl (carry key change) (table.carry key change value)).count p ≤
            (table.carry key change value).count p := by
          apply count_carryAll_le respects keeps hkeys.2.1.2
            (fun other hother => (hmem other (hitems other hother)).2) (hkeyed.carry value)
          intro other hother
          have hother_ne : key other ≠ key value := fun hsame =>
            hkeys.2.1.1 (hsame ▸ List.mem_map_of_mem hother)
          rw [get_carry, if_neg hother_ne]
          split
          · exact Option.some_ne_none _
          · rw [(hmem other (hitems other hother)).1]
            exact Option.some_ne_none _
        have hlength := hperm.length_eq
        have hbefore := hthose.length_eq
        rw [length_those] at hlength hbefore
        simp only [List.length_append, List.length_map, List.length_cons] at hlength hbefore
        omega
      · exact fun hboth => hfree hboth.1

end Run

omit [DecidableEq κ] in
/-- What the values are put over, said of them as they were: none takes the key of a value that
stays, or that is moved after it. -/
theorem clear_iff (distinct : (items.map fun value => key (change value)).Nodup) :
    Clear key change rest items ↔
      (∀ value ∈ items, key (change value) ∉ rest.map key) ∧
        items.Pairwise fun value later => key (change value) ≠ key later := by
  induction items generalizing rest with
  | nil => simp [Clear]
  | cons value items ih =>
    rw [List.map_cons, List.nodup_cons] at distinct
    have hapart : ∀ other ∈ items, key (change other) ≠ key (change value) := by
      intro other hother heq
      exact distinct.1 (heq ▸ List.mem_map_of_mem (f := fun value => key (change value)) hother)
    have hlast : (∀ other ∈ items, key (change other) ∉ (rest ++ [change value]).map key) ↔
        ∀ other ∈ items, key (change other) ∉ rest.map key := by
      apply forall₂_congr
      intro other hother
      rw [List.map_append, List.mem_append, not_or, List.map_singleton, List.mem_singleton]
      exact and_iff_left (hapart other hother)
    have hlater : key (change value) ∉ items.map key ↔
        ∀ later ∈ items, key (change value) ≠ key later := by
      simp only [List.mem_map, not_exists, not_and, ne_comm]
    rw [Clear, ih distinct.2, hlast, List.map_append, List.mem_append, not_or, hlater,
      List.forall_mem_cons, List.pairwise_cons]
    constructor
    · rintro ⟨⟨hrest, hitems⟩, hothers, hpairs⟩
      exact ⟨⟨hrest, hothers⟩, hitems, hpairs⟩
    · rintro ⟨⟨hrest, hothers⟩, hitems, hpairs⟩
      exact ⟨⟨hrest, hitems⟩, hothers, hpairs⟩

end Mailo.Library.Table
