import Mathlib.Data.List.Basic
import Mailo.Library.Lists

/-!
# Registers and write logs

A state made of registers is read a key at a time, and a write sets the register its key names.
After a log of writes each register holds the last write to it, or what it held before. A log
is *in force* on a state when writing it again changes nothing.
-/

namespace Mailo.Library

/-- States read by key, and writes that carry the key they are for. -/
class Registers (σ : Type) (κ ω : outParam Type) where
  key : ω → κ
  get : σ → κ → ω
  put : σ → ω → σ
  key_get : ∀ state k, key (get state k) = k
  get_put : ∀ [DecidableEq κ] state w k,
    get (put state w) k = if k = key w then w else get state k

namespace Registers

variable {σ κ ω : Type} [Registers σ κ ω]

def putAll (state : σ) (log : List ω) : σ := log.foldl put state

variable (state : σ)

@[simp] theorem putAll_nil : putAll state [] = state := rfl

@[simp] theorem putAll_cons (w : ω) (rest : List ω) :
    putAll state (w :: rest) = putAll (put state w) rest := rfl

theorem putAll_append (log more : List ω) :
    putAll state (log ++ more) = putAll (putAll state log) more := List.foldl_append

variable [DecidableEq κ]

/-- The last write of a log to one register. -/
def last (σ : Type) {κ ω : Type} [DecidableEq κ] [Registers σ κ ω] (k : κ) : List ω → Option ω
  | [] => none
  | w :: rest => (last σ k rest).or (if k = key σ w then some w else none)

attribute [local simp] last

/-- Every register a log names holds the last write to it. -/
def InForce (state : σ) (log : List ω) : Prop :=
  ∀ k w, last σ k log = some w → get state k = w

attribute [local simp] last in
@[simp] theorem last_nil (k : κ) : last σ k ([] : List ω) = none := rfl

theorem last_append (k : κ) (log more : List ω) :
    last σ k (log ++ more) = (last σ k more).or (last σ k log) := by
  induction log with
  | nil => simp
  | cons w rest ih => simp [last, ih, Option.or_assoc]

theorem last_singleton (k : κ) (w : ω) :
    last σ k [w] = if k = key σ w then some w else none := by
  simp [last]

variable {k : κ} {log : List ω} {w : ω}

theorem last_eq_some (h : last σ k log = some w) :
    w ∈ log ∧ key σ w = k := by
  induction log with
  | nil => simp at h
  | cons head rest ih =>
    rw [last, Option.or_eq_some_iff] at h
    rcases h with hrest | ⟨_, hhead⟩
    · exact ⟨.tail _ (ih hrest).1, (ih hrest).2⟩
    · by_cases hk : k = key σ head
      · rw [if_pos hk, Option.some.injEq] at hhead
        subst hhead
        exact ⟨.head _, hk.symm⟩
      · simp [hk] at hhead

theorem last_eq_none :
    last σ k log = none ↔ ∀ w ∈ log, key σ w ≠ k := by
  induction log with
  | nil => simp
  | cons head rest ih =>
    rw [last, Option.or_eq_none_iff, ih, List.forall_mem_cons]
    by_cases hk : k = key σ head
    · simp [hk]
    · simp only [hk, if_false, and_true]
      exact ⟨fun h => ⟨fun heq => hk heq.symm, h⟩, fun h => h.2⟩

theorem exists_last (h : w ∈ log) :
    ∃ v, last σ (key σ w) log = some v := by
  cases hlast : last σ (key σ w) log with
  | none => exact absurd rfl (last_eq_none.mp hlast w h)
  | some v => exact ⟨v, rfl⟩

/-- What a log leaves in each register. -/
theorem get_putAll (log : List ω) (k : κ) :
    get (putAll state log) k = (last σ k log).getD (get state k) := by
  induction log generalizing state with
  | nil => rfl
  | cons w rest ih =>
    rw [putAll_cons, ih, get_put, last]
    cases hrest : last σ k rest with
    | some v => simp
    | none => by_cases hk : k = key σ w <;> simp [hk]

/-- Writing back what every named register held before puts the state back. -/
theorem get_putAll_undo (log undo : List ω) (prior : ∀ w ∈ undo, w = get state (key σ w))
    (covers : ∀ w ∈ log, ∃ u ∈ undo, key σ u = key σ w) (k : κ) :
    get (putAll (putAll state log) undo) k = get state k := by
  rw [get_putAll]
  cases hundo : last σ k undo with
  | some u =>
    obtain ⟨hmem, hkey⟩ := last_eq_some hundo
    rw [Option.getD_some, ← hkey]
    exact prior u hmem
  | none =>
    rw [Option.getD_none, get_putAll]
    have hlog : last σ k log = none := by
      rw [last_eq_none]
      intro w hw hk
      obtain ⟨u, hu, hsame⟩ := covers w hw
      exact last_eq_none.mp hundo u hu (hsame.trans hk)
    rw [hlog, Option.getD_none]

/-- Two logs of the same writes, each register written one value, leave the same. -/
theorem get_putAll_congr {more : List ω} (same : ∀ w, w ∈ log ↔ w ∈ more)
    (functional : ∀ w ∈ log, ∀ v ∈ log, key σ w = key σ v → w = v) (k : κ) :
    get (putAll state log) k = get (putAll state more) k := by
  rw [get_putAll, get_putAll]
  cases hlog : last σ k log with
  | none =>
    have hmore : last σ k more = none :=
      last_eq_none.mpr fun w hw => last_eq_none.mp hlog w ((same w).mpr hw)
    rw [hmore]
  | some w =>
    obtain ⟨hw, hkey⟩ := last_eq_some hlog
    obtain ⟨v, hv⟩ := exists_last (σ := σ) ((same w).mp hw)
    obtain ⟨hvmem, hvkey⟩ := last_eq_some hv
    rw [← hkey, hv, functional w hw v ((same v).mpr hvmem) hvkey.symm]

theorem inForce_putAll (log : List ω) : InForce (putAll state log) log := by
  intro k w h
  rw [get_putAll, h, Option.getD_some]

end Registers

end Mailo.Library
