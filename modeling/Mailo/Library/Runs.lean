import Mathlib.Data.List.Induction
import Mailo.Library.Lists

/-!
# Runs, logs and registers

A system takes one action at a time. What holds at its start, and is kept by every action that
satisfies a condition, holds in every state reached by such actions.

A log says of one key after another what it holds, or that it is gone. What stands under a key at
the end is what the log said of it last, or what stood there before.

A dated register is replaced by every write but one its own date keeps out. Whatever the order
they come in, it ends with the write that none before it keeps out and that keeps out all after it.
-/

namespace Mailo.Library

/-! ## Runs of a system -/

/-- The states reached from `start` by actions that each satisfy `meets` where they are taken. -/
inductive Reaches {σ α : Type} (step : σ → α → σ) (meets : σ → α → Prop) (start : σ) : σ → Prop
  | start : Reaches step meets start start
  | next {state : σ} (action : α) : Reaches step meets start state → meets state action →
      Reaches step meets start (step state action)

def anyAction {σ α : Type} : σ → α → Prop := fun _ _ => True

namespace Reaches

variable {σ α : Type} {step : σ → α → σ} {meets : σ → α → Prop} {start state : σ}

theorem invariant (inv : σ → Prop) (base : inv start)
    (keeps : ∀ state action, inv state → meets state action → inv (step state action))
    (h : Reaches step meets start state) : inv state := by
  induction h with
  | start => exact base
  | next action _ hmeets ih => exact keeps _ action ih hmeets

theorem weaken {more : σ → α → Prop} (weaker : ∀ state action, meets state action →
    more state action) (h : Reaches step meets start state) : Reaches step more start state := by
  induction h with
  | start => exact .start
  | next action _ hmeets ih => exact ih.next action (weaker _ action hmeets)

/-- A list of actions, one after another, from a state reached. -/
theorem foldl (h : Reaches step anyAction start state) (actions : List α) :
    Reaches step anyAction start (actions.foldl step state) := by
  induction actions generalizing state with
  | nil => exact h
  | cons action rest ih => exact ih (h.next action trivial)

end Reaches

/-! ## What is said of keys, one thing after another -/

/-- One thing said of a key. -/
inductive Said (κ α : Type) where
  | put (key : κ) (value : α)
  | drop (key : κ)
deriving DecidableEq

namespace Said

variable {κ α : Type}

/-- What is put, in order. -/
def puts (log : List (Said κ α)) : List (κ × α) :=
  log.filterMap fun said =>
    match said with
    | .put key value => some (key, value)
    | .drop _ => none

/-- What is dropped, in order. -/
def drops (log : List (Said κ α)) : List κ :=
  log.filterMap fun said =>
    match said with
    | .put _ _ => none
    | .drop key => some key

theorem puts_append (log more : List (Said κ α)) : puts (log ++ more) = puts log ++ puts more :=
  List.filterMap_append

theorem drops_append (log more : List (Said κ α)) : drops (log ++ more) = drops log ++ drops more :=
  List.filterMap_append

variable [DecidableEq κ]

/-- What stands after one thing is said. -/
def tell (held : κ → Option α) : Said κ α → κ → Option α
  | .put key value => Function.update held key (some value)
  | .drop key => Function.update held key none

def tellAll (held : κ → Option α) (log : List (Said κ α)) : κ → Option α := log.foldl tell held

theorem tellAll_append (held : κ → Option α) (log more : List (Said κ α)) :
    tellAll held (log ++ more) = tellAll (tellAll held log) more :=
  List.foldl_append

theorem tellAll_concat (held : κ → Option α) (log : List (Said κ α)) (said : Said κ α) :
    tellAll held (log ++ [said]) = tell (tellAll held log) said := by
  rw [tellAll_append]
  rfl

/-- What holds a key at the end depends on which keys were held, not on their values. -/
theorem tellAll_isSome {held other : κ → Option α} (log : List (Said κ α))
    (h : ∀ key, (held key).isSome = (other key).isSome) (key : κ) :
    (tellAll held log key).isSome = (tellAll other log key).isSome := by
  induction log using List.reverseRecOn with
  | nil => exact h key
  | append_singleton log said ih =>
    rw [tellAll_concat, tellAll_concat]
    cases said with
    | put | drop =>
      rw [tell, tell, Function.update_apply, Function.update_apply]
      split
      · rfl
      · exact ih

/-- The last value a list of rows holds under a key. -/
def lastOf (key : κ) (rows : List (κ × α)) : Option α :=
  ((rows.filter fun row => row.1 = key).getLast?).map Prod.snd

theorem lastOf_concat (key : κ) (rows : List (κ × α)) (row : κ × α) :
    lastOf key (rows ++ [row]) = if row.1 = key then some row.2 else lastOf key rows := by
  unfold lastOf
  rw [List.filter_append]
  by_cases h : row.1 = key <;> simp [h]

theorem lastOf_eq_none {key : κ} {rows : List (κ × α)} :
    lastOf key rows = none ↔ key ∉ rows.map Prod.fst := by
  induction rows using List.reverseRecOn with
  | nil => simp [lastOf]
  | append_singleton rows row ih =>
    rw [lastOf_concat, List.map_append, List.mem_append]
    by_cases h : row.1 = key
    · simp [h]
    · rw [if_neg h, ih]
      simp [Ne.symm h]

/-- Where a key is never dropped, what stands is the last value put, or what stood. -/
theorem tellAll_eq {held : κ → Option α} {log : List (Said κ α)} {key : κ}
    (h : key ∉ drops log) : tellAll held log key = (lastOf key (puts log)).or (held key) := by
  induction log using List.reverseRecOn with
  | nil => rfl
  | append_singleton log said ih =>
    rw [drops_append, List.mem_append, not_or] at h
    rw [tellAll_concat, puts_append]
    cases said with
    | put other value =>
      show Function.update (tellAll held log) other (some value) key =
        (lastOf key (puts log ++ [(other, value)])).or (held key)
      rw [lastOf_concat]
      by_cases heq : other = key
      · rw [heq, Function.update_self, if_pos rfl]
        rfl
      · rw [Function.update_of_ne (Ne.symm heq), if_neg heq]
        exact ih h.1
    | drop other =>
      show Function.update (tellAll held log) other none key =
        (lastOf key (puts log ++ [])).or (held key)
      have hne : key ≠ other := fun heq => h.2 (by rw [heq]; exact List.mem_singleton_self _)
      rw [Function.update_of_ne hne, List.append_nil]
      exact ih h.1

end Said

/-! ## A register of the newest write -/

variable {α τ : Type} (keeps : τ → τ → Prop) [DecidableRel keeps]

/-- `keeps new old` says that a register dated `old` keeps out a write dated `new`. -/
def renew (held : Option τ × α) : Option (τ × α) → Option τ × α
  | none => held
  | some (at_, value) => if held.1.any fun old => keeps at_ old then held else (some at_, value)

variable {keeps} {held : Option τ × α} {writes : List (Option (τ × α))} {at_ : τ}

theorem renew_open (hopen : ∀ old ∈ held.1, ¬ keeps at_ old)
    (h : ∀ write ∈ writes, ∀ w ∈ write, ¬ keeps at_ w.1) :
    ∀ old ∈ (writes.foldl (renew keeps) held).1, ¬ keeps at_ old := by
  induction writes generalizing held with
  | nil => exact hopen
  | cons write writes ih =>
    obtain ⟨hwrite, hrest⟩ := List.forall_mem_cons.mp h
    refine ih ?_ hrest
    unfold renew
    split
    · exact hopen
    · rename_i date value
      split
      · exact hopen
      · intro old hold
        rw [← Option.some.inj hold]
        exact hwrite (date, value) rfl

theorem renew_kept {value : α} (h : ∀ write ∈ writes, ∀ w ∈ write, keeps w.1 at_) :
    writes.foldl (renew keeps) (some at_, value) = (some at_, value) := by
  induction writes with
  | nil => rfl
  | cons write writes ih =>
    obtain ⟨hwrite, hrest⟩ := List.forall_mem_cons.mp h
    have hstep : renew keeps (some at_, value) write = (some at_, value) := by
      cases write with
      | none => rfl
      | some w => simp [renew, hwrite w rfl]
    rw [List.foldl_cons, hstep, ih hrest]

theorem renew_newest {front back : List (Option (τ × α))} {value init : α}
    (hfront : ∀ write ∈ front, ∀ w ∈ write, ¬ keeps at_ w.1)
    (hback : ∀ write ∈ back, ∀ w ∈ write, keeps w.1 at_) :
    (front ++ some (at_, value) :: back).foldl (renew keeps) (none, init) = (some at_, value) := by
  have hopen : ∀ old ∈ (front.foldl (renew keeps) (none, init)).1, ¬ keeps at_ old :=
    renew_open (by simp) hfront
  have hany : ¬ (front.foldl (renew keeps) (none, init)).1.any fun old => keeps at_ old := by
    simpa [Option.any_eq_true] using hopen
  rw [List.foldl_append, List.foldl_cons, renew, if_neg hany, renew_kept hback]

theorem renew_none (h : ∀ write ∈ writes, write = none) :
    writes.foldl (renew keeps) held = held := by
  rw [List.eq_replicate_iff.mpr ⟨rfl, h⟩]
  induction writes.length with
  | zero => rfl
  | succ n ih => exact ih

end Mailo.Library
