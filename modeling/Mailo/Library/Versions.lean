import Mathlib.Data.List.Basic
import Mailo.Library.Lists

/-!
# Keys that change

A history is the changes made under keys, oldest first. A key's version counts its changes, and
each version has a value or none. A copy that knows a key up to some version follows it when what
is held is the value at that version or at a later one.
-/

namespace Mailo.Library.Versions

variable {κ ν τ : Type} [DecidableEq κ]

/-- What stood under a key after each of its changes. -/
def states (history : List (κ × Option ν)) (key : κ) : List (Option ν) :=
  (history.filter fun change => change.1 = key).map Prod.snd

def version (history : List (κ × Option ν)) (key : κ) : Nat := (states history key).length

/-- What stood under a key at a version, nothing before its first change. -/
def stateAt (history : List (κ × Option ν)) (key : κ) : Nat → Option ν
  | 0 => none
  | n + 1 => ((states history key)[n]?).join

def current (history : List (κ × Option ν)) (key : κ) : Option ν :=
  stateAt history key (version history key)

variable {history : List (κ × Option ν)} {key : κ}

theorem states_append (history more : List (κ × Option ν)) (key : κ) :
    states (history ++ more) key = states history key ++ states more key := by
  rw [states, List.filter_append, List.map_append]
  rfl

theorem version_append (history more : List (κ × Option ν)) (key : κ) :
    version (history ++ more) key = version history key + version more key := by
  rw [version, states_append, List.length_append]
  rfl

theorem version_le_append (history more : List (κ × Option ν)) (key : κ) :
    version history key ≤ version (history ++ more) key := by
  rw [version_append]
  omega

/-- A later change leaves the versions there are. -/
theorem stateAt_append (more : List (κ × Option ν)) {n : Nat} (h : n ≤ version history key) :
    stateAt (history ++ more) key n = stateAt history key n := by
  cases n with
  | zero => rfl
  | succ n =>
    have hlt : n < (states history key).length := h
    rw [stateAt, stateAt, states_append, List.getElem?_append_left hlt]

/-- What stands at a version was put there by a change. -/
theorem mem_of_stateAt {n : Nat} {value : ν} (h : stateAt history key n = some value) :
    (key, some value) ∈ history := by
  cases n with
  | zero => cases h
  | succ n =>
    rw [stateAt, Option.join_eq_some_iff] at h
    obtain ⟨change, hchange, hvalue⟩ := List.mem_map.mp (List.mem_of_getElem? h)
    obtain ⟨hmem, hkey⟩ := List.mem_filter.mp hchange
    rw [decide_eq_true_eq] at hkey
    rw [← hkey, ← hvalue]
    exact hmem

/-- What is held of a key known up to a version: its value then or later, and nothing of a key that
was known to have none. -/
structure Follows (history : List (κ × Option ν)) (view : ν → τ) (key : κ) (known : Nat)
    (held : Option τ) : Prop where
  later : ∃ n, known ≤ n ∧ n ≤ version history key ∧ held = (stateAt history key n).map view
  absent : stateAt history key known = none → held = none

namespace Follows

variable {view : ν → τ} {known : Nat} {held : Option τ}

theorem append (h : Follows history view key known held) (more : List (κ × Option ν)) :
    Follows (history ++ more) view key known held := by
  obtain ⟨⟨n, hknown, hn, hheld⟩, habsent⟩ := h
  have hstate : stateAt (history ++ more) key known = stateAt history key known :=
    stateAt_append more (Nat.le_trans hknown hn)
  exact
    { later := ⟨n, hknown, Nat.le_trans hn (version_le_append _ _ _), by
        rw [stateAt_append more hn, hheld]⟩
      absent := fun hnone => habsent (hstate ▸ hnone) }

theorem known_le (h : Follows history view key known held) : known ≤ version history key := by
  obtain ⟨n, hknown, hn, _⟩ := h.later
  omega

/-- A key known to its last version is held as it stands. -/
theorem current_of_known (h : Follows history view key known held)
    (hknown : known = version history key) : held = (current history key).map view := by
  obtain ⟨n, hle, hn, hheld⟩ := h.later
  obtain rfl : n = version history key := by omega
  exact hheld

/-- The value at the known version follows it. -/
theorem at_known (h : known ≤ version history key)
    (hheld : held = (stateAt history key known).map view) :
    Follows history view key known held where
  later := ⟨known, Nat.le_refl known, h, hheld⟩
  absent hnone := by rw [hheld, hnone, Option.map_none]

/-- The value that stands now follows a key that was known to have one. -/
theorem at_current (h : known ≤ version history key)
    (hheld : held = (current history key).map view) (hthere : stateAt history key known ≠ none) :
    Follows history view key known held where
  later := ⟨_, h, Nat.le_refl _, hheld⟩
  absent hnone := absurd hnone hthere

end Follows

end Mailo.Library.Versions
