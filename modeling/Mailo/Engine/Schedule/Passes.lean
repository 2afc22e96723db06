import Mailo.Engine.Schedule.Words
import Mailo.Engine.Schedule.World

/-!
# No pass doubles and no push is lost

Of the passes in flight for an account at most one was not told to stop, and it is the one the link
waits for. A push that finds it running is remembered until it ends.
-/

namespace Mailo.Engine.Schedule

open Domain Logic Library

variable {host : Host}

/-- Whether a pass says with `event` that it is over. -/
def ends : Event → Bool
  | .finished _ | .failed _ _ _ => true
  | _ => false

def OnlyWakes (effects : List Effect) : Prop := effects = [] ∨ ∃ due, effects = [.wakeAt due]

/-- What an event does to the passes of an account. -/
inductive Stepped (link : Link) (event : Event) : Link × List Effect → Prop
  | begun : link.isBusy = false → Stepped link event (Logic.begin link)
  | cancelled (after : Link) : link.isBusy = true → event = .cancel →
      Stepped link event (after, [.cancelPass])
  | ended (next : Link) (effects : List Effect) : link.isBusy = true → ends event = true →
      next.isBusy = false → OnlyWakes effects → Stepped link event (next, effects)
  | kept (next : Link) (effects : List Effect) : next.isBusy = link.isBusy → OnlyWakes effects →
      Stepped link event (next, effects)

theorem failed_rests (first : First) (after : Link) (retry : Retry) (why : String) (pause : Pause)
    (now : DateTime) (every : Duration) :
    (failed first after retry why pause now every).1.isBusy = false ∧
      OnlyWakes (failed first after retry why pause now every).2 := by
  cases retry with
  | now | after named => exact ⟨rfl, .inr ⟨_, rfl⟩⟩
  | needsReauth | needsGrant | fatal text => exact ⟨rfl, .inl rfl⟩

theorem toldLive_stepped (link : Link) (event : Event) (live : Live) (now : DateTime)
    (every : Duration) : Stepped link event (toldLive live now every link) := by
  have hbusy := toldLive_isBusy live now every link
  have hwakes := toldLive_effects live now every link
  generalize toldLive live now every link = result at hbusy hwakes ⊢
  obtain ⟨next, effects⟩ := result
  exact .kept next effects hbusy hwakes

theorem step_stepped (link : Link) (event : Event) (now : DateTime) (every : Duration) :
    Stepped link event (step link event now every) := by
  have hkept : Stepped link event (link, []) := .kept link [] rfl (.inl rfl)
  unfold step
  split
  · rename_i first doing count after
    unfold running
    split
    · exact .kept _ _ rfl (.inl rfl)
    · exact .ended _ _ rfl rfl rfl (.inr ⟨_, rfl⟩)
    · rename_i retry why pause
      obtain ⟨hrests, hwakes⟩ := failed_rests first after retry why pause now every
      exact .ended _ _ rfl rfl hrests hwakes
    · exact .cancelled after rfl rfl
    · exact .kept _ _ rfl (.inl rfl)
    · exact hkept
    · exact hkept
    · exact hkept
  · exact .begun rfl
  · exact .begun rfl
  · exact .begun rfl
  · exact .begun rfl
  · split
    · exact .begun rfl
    · exact hkept
  · split
    · exact .begun rfl
    · exact hkept
  · exact .begun rfl
  · exact .begun rfl
  · exact toldLive_stepped _ _ _ now every
  · exact hkept

/-! ## The pass that counts -/

/-- Which pass a task is. -/
def Task.pass? : Task → Option Nat
  | .pass id _ => some id
  | .timer _ _ _ | .watch _ => none

/-- Every pass in flight but the one the link waits for was told to stop. -/
structure Sole (cell : Cell) (flight : List Task) : Prop where
  passes : ∀ id generation, .pass id generation ∈ flight → id < cell.made
  watches : ∀ id, .watch id ∈ flight → id < cell.made
  once : (flight.filterMap Task.pass?).Nodup
  counts : ∀ id generation, .pass id generation ∈ flight → id ∈ cell.told ∨
    cell.cancel = some id ∧ cell.passes = some generation ∧
      ∃ link, cell.link = some link ∧ link.isBusy = true

/-- The same of what is kept while a note is handled, with what was in flight before. -/
def SoleTurn (before : List Task) (turn : Turn) : Prop := Sole turn.cell (before ++ turn.fresh)

theorem Sole.append_timers {cell : Cell} {flight timers : List Task} (h : Sole cell flight)
    (htimers : ∀ task ∈ timers, ∃ generation wait event, task = .timer generation wait event) :
    Sole cell (flight ++ timers) := by
  have hnone : timers.filterMap Task.pass? = [] := by
    rw [List.filterMap_eq_nil_iff]
    intro task htask
    obtain ⟨generation, wait, event, rfl⟩ := htimers task htask
    rfl
  have hold {task : Task} (hmem : task ∈ flight ++ timers)
      (hother : ∀ generation wait event, task ≠ .timer generation wait event) : task ∈ flight := by
    rcases List.mem_append.mp hmem with hmem | hmem
    · exact hmem
    · obtain ⟨generation, wait, event, htimer⟩ := htimers task hmem
      exact absurd htimer (hother generation wait event)
  refine ⟨fun id generation hmem => h.passes id generation (hold hmem (by simp)),
    fun id hmem => h.watches id (hold hmem (by simp)), ?_,
    fun id generation hmem => h.counts id generation (hold hmem (by simp))⟩
  rw [List.filterMap_append, hnone, List.append_nil]
  exact h.once

theorem Sole.of_cell {cell other : Cell} {flight : List Task} (h : Sole cell flight)
    (made : cell.made ≤ other.made)
    (counts : ∀ id generation, .pass id generation ∈ flight →
      (id ∈ cell.told ∨ cell.cancel = some id ∧ cell.passes = some generation ∧
        ∃ link, cell.link = some link ∧ link.isBusy = true) →
      id ∈ other.told ∨ other.cancel = some id ∧ other.passes = some generation ∧
        ∃ link, other.link = some link ∧ link.isBusy = true) : Sole other flight :=
  ⟨fun id generation hmem => Nat.lt_of_lt_of_le (h.passes id generation hmem) made,
    fun id hmem => Nat.lt_of_lt_of_le (h.watches id hmem) made, h.once,
    fun id generation hmem => counts id generation hmem (h.counts id generation hmem)⟩

variable {link : Link} {before : List Task} {turn : Turn} {event : Event}

theorem isBusy_of_kind {other : Link} (h : kind link = kind other) :
    link.isBusy = other.isBusy := by
  cases link <;> cases other <;> first | rfl | cases h

theorem Quiet.sole {after : Turn} (h : Quiet turn after) (k : SoleTurn before turn) :
    SoleTurn before after := by
  obtain ⟨timers, hfresh, htimers⟩ := h.fresh
  unfold SoleTurn
  rw [hfresh, ← List.append_assoc]
  refine (Sole.of_cell k (Nat.le_of_eq h.made.symm) fun id generation _ hcounts => ?_).append_timers
    htimers
  rw [h.cell]
  rcases hcounts with htold | ⟨hcancel, hpasses, link, hlink, hbusy⟩
  · exact .inl htold
  · refine .inr ⟨hcancel, hpasses, ?_⟩
    have hshape := h.link
    rw [hlink] at hshape
    cases hafter : after.cell.link with
    | none =>
      rw [hafter] at hshape
      cases hshape
    | some found =>
      rw [hafter] at hshape
      exact ⟨found, rfl, by rw [isBusy_of_kind (resting_of_shape hshape rfl).1]; exact hbusy⟩

theorem sole_arm (wait : Duration) (event : Event) (h : SoleTurn before turn) :
    SoleTurn before (turn.arm wait event) := by
  unfold SoleTurn Turn.arm
  rw [← List.append_assoc]
  have htimer : ∀ task ∈ [Task.timer (nextGeneration turn.cell.wakes) wait event],
      ∃ generation wait event, task = .timer generation wait event := by
    intro task htask
    exact ⟨_, _, _, List.mem_singleton.mp htask⟩
  have hcell : Sole { turn.cell with wakes := some (nextGeneration turn.cell.wakes) }
      (before ++ turn.fresh) := Sole.of_cell h (Nat.le_refl _) fun _ _ _ hcounts => hcounts
  exact hcell.append_timers htimer

theorem sole_begin {before : List Task} {turn next : Turn} {task : Task}
    (hfresh : next.fresh = turn.fresh ++ [task]) (hmade : next.cell.made = turn.cell.made + 1)
    (hid : task.pass? = none ∨ task.pass? = some turn.cell.made)
    (hwatch : ∀ id, task = .watch id → id = turn.cell.made)
    (counts : ∀ id generation, .pass id generation ∈ before ++ turn.fresh ∨
        .pass id generation = task → id ∈ next.cell.told ∨ next.cell.cancel = some id ∧
        next.cell.passes = some generation ∧ ∃ link, next.cell.link = some link ∧ link.isBusy = true)
    (h : SoleTurn before turn) : SoleTurn before next := by
  have hcases {other : Task} (hmem : other ∈ before ++ next.fresh) :
      other ∈ before ++ turn.fresh ∨ other = task := by
    rw [hfresh, ← List.append_assoc] at hmem
    rcases List.mem_append.mp hmem with hold | hnew
    · exact .inl hold
    · exact .inr (List.mem_singleton.mp hnew)
  refine ⟨fun id generation hmem => ?_, fun id hmem => ?_, ?_, fun id generation hmem =>
    counts id generation (hcases hmem)⟩
  · rw [hmade]
    rcases hcases hmem with hold | rfl
    · exact Nat.lt_succ_of_lt (h.passes id generation hold)
    · rcases hid with hnone | hsome
      · cases hnone
      · exact Nat.lt_succ_of_le (Nat.le_of_eq (Option.some.inj hsome))
  · rw [hmade]
    rcases hcases hmem with hold | hnew
    · exact Nat.lt_succ_of_lt (h.watches id hold)
    · exact Nat.lt_succ_of_le (Nat.le_of_eq (hwatch id hnew.symm))
  · rw [hfresh, ← List.append_assoc, List.filterMap_append]
    rcases hid with hnone | hsome
    · simpa [hnone] using h.once
    · rw [List.filterMap_cons_some hsome, List.filterMap_nil, List.nodup_append]
      refine ⟨h.once, List.nodup_singleton _, ?_⟩
      intro id hid other hother hsame
      rw [List.mem_singleton] at hother
      obtain ⟨task, htask, hpass⟩ := List.mem_filterMap.mp hid
      cases task with
      | pass found generation =>
        have hlt := h.passes found generation htask
        rw [Task.pass?, Option.some.injEq] at hpass
        omega
      | timer _ _ _ | watch _ => cases hpass

theorem sole_wakes {effects : List Effect} (now : DateTime) (wakes : OnlyWakes effects)
    (h : SoleTurn before turn) :
    SoleTurn before (effects.foldl (Turn.effect now) turn) := by
  rcases wakes with rfl | ⟨due, rfl⟩
  · exact h
  · exact sole_arm _ _ h

/-- The passes in flight as a step leaves them, where no pass still runs that it says is over. -/
theorem move_sole {before : List Task} {turn : Turn} {link : Link} {event : Event}
    (hlink : turn.cell.link = some link) (h : SoleTurn before turn)
    (hstop : link.isBusy = true → ends event = true → ∀ id generation,
      .pass id generation ∈ before ++ turn.fresh → id ∈ turn.cell.told) :
    SoleTurn before (turn.move host link event) := by
  have hheard : turn.move host link event =
      (step link event host.now turn.cell.interval).2.foldl (Turn.effect host.now)
        ⟨{ (turn.hear link event).cell with
          link := some (step link event host.now turn.cell.interval).1 },
          turn.fresh⟩ := rfl
  rw [hheard]
  have hstepped := step_stepped link event host.now turn.cell.interval
  generalize step link event host.now turn.cell.interval = result at hstepped ⊢
  have hbusy {id generation : Nat} (hcounts : turn.cell.cancel = some id ∧
      turn.cell.passes = some generation ∧ ∃ link, turn.cell.link = some link ∧
        link.isBusy = true) : link.isBusy = true := by
    obtain ⟨_, _, found, hfound, hbusy⟩ := hcounts
    rw [hlink, Option.some.injEq] at hfound
    subst hfound
    exact hbusy
  cases hstepped with
  | begun hidle =>
    refine @sole_begin before turn _ (.pass turn.cell.made (nextGeneration turn.cell.passes))
      rfl rfl (.inr rfl) (fun id hid => by cases hid) ?_ h
    rintro id generation (hold | hnew)
    · rcases h.counts id generation hold with htold | hcounts
      · exact .inl htold
      · rw [hbusy hcounts] at hidle
        cases hidle
    · injection hnew with hid hgeneration
      subst hid hgeneration
      exact .inr ⟨rfl, rfl, _, rfl, rfl⟩
  | cancelled after hbusy hcancel =>
    refine Sole.of_cell h (Nat.le_refl _) fun id generation _ hcounts => .inl ?_
    rcases hcounts with htold | ⟨hheld, _⟩
    · exact List.mem_append_right _ htold
    · refine List.mem_append_left _ ?_
      rw [show (turn.hear link event).cell.cancel = some id from hheld]
      exact List.mem_singleton.mpr rfl
  | ended next effects hbusy hends _ hwakes =>
    refine sole_wakes host.now hwakes (Sole.of_cell h (Nat.le_refl _) fun id generation hmem _ => ?_)
    exact .inl (hstop hbusy hends id generation hmem)
  | kept next effects hsame hwakes =>
    refine sole_wakes host.now hwakes (Sole.of_cell h (Nat.le_refl _) fun id generation _ hcounts => ?_)
    rcases hcounts with htold | hcounts
    · exact .inl htold
    · exact .inr ⟨hcounts.1, hcounts.2.1, next, rfl, by rw [hsame]; exact hbusy hcounts⟩

theorem sole_stopWatch (h : SoleTurn before turn) :
    SoleTurn before turn.stopWatch :=
  Sole.of_cell h (Nat.le_refl _) fun _ _ _ hcounts =>
    hcounts.imp (fun htold => List.mem_append_right _ htold) id

theorem reconcileWatch_sole {again : Turn → Event → Turn}
    (quiet : ∀ turn live, Quiet turn (again turn (.live live))) (link : Link)
    (h : SoleTurn before turn) : SoleTurn before (reconcileWatch host again turn link) := by
  unfold reconcileWatch
  split
  · refine @sole_begin before turn _ (.watch turn.cell.made) rfl rfl (.inl rfl)
      (fun id hid => by injection hid with hid; exact hid.symm) ?_ h
    rintro id generation (hold | hnew)
    · exact h.counts id generation hold
    · cases hnew
  · exact (quiet turn.stopWatch .polling).sole (sole_stopWatch h)
  · exact h

theorem moveWatch_sole {before : List Task} {again : Turn → Event → Turn}
    (quiet : ∀ turn live, Quiet turn (again turn (.live live))) {turn : Turn} (was next : Link)
    (h : SoleTurn before turn) : SoleTurn before (moveWatch host again turn was next) := by
  unfold moveWatch
  split
  · exact h
  · exact reconcileWatch_sole quiet next h

/-- Whatever is handled, at most the pass the link waits for still runs. -/
theorem handle_sole (fuel : Nat) (h : SoleTurn before turn)
    (hstop : ∀ link, turn.cell.link = some link → link.isBusy = true → ends event = true →
      ∀ id generation, .pass id generation ∈ before ++ turn.fresh → id ∈ turn.cell.told) :
    SoleTurn before (handle host fuel turn event) := by
  induction fuel generalizing turn event with
  | zero => exact h
  | succ fuel ih =>
    have hquiet := @handle_live host fuel
    have hhandled := @handle_handled host fuel turn event
    generalize handle host (fuel + 1) turn event = result at hhandled ⊢
    cases hhandled with
    | unknown | unasked => exact h
    | deferred link => exact reconcileWatch_sole hquiet link (sole_arm _ _ h)
    | dropped link => exact reconcileWatch_sole hquiet link h
    | ran link hlink =>
      have hmoved := @moveWatch_sole host before _ hquiet _ link (turn.next host link event)
        (@move_sole host before turn link event hlink h (hstop link hlink))
      have hfollowed := @after_followed host (handle host fuel) (turn.move host link event) link
        (turn.next host link event) event
      generalize after host (handle host fuel) (turn.move host link event) link
        (turn.next host link event) event = result at hfollowed ⊢
      generalize moveWatch host (handle host fuel) (turn.move host link event) link
        (turn.next host link event) = moved at hfollowed hmoved
      have hsettled : SoleTurn before (moved.settled link (turn.next host link event)) :=
        Sole.of_cell hmoved (Nat.le_refl _) fun _ _ _ hcounts => hcounts
      cases hfollowed with
      | owed => exact ih hsettled fun _ _ _ hends => by cases hends
      | misheard => exact (hquiet _ _).sole hsettled
      | settled => exact hsettled

/-! ## A push that finds the pass running -/

/-- What stops an account's pass without leaving it current: a person, or its own end. -/
def stops : Event → Bool
  | .failed _ _ _ | .cancel => true
  | _ => false

theorem step_running (hbusy : link.isBusy = true) (hends : ends event = false)
    (hstops : stops event = false) (now : DateTime) (every : Duration) :
    (step link event now every).1.isBusy = true ∧ (step link event now every).2 = [] ∧
      kind (step link event now every).1.resting = kind link.resting := by
  cases link with
  | syncing first doing count after =>
    cases event with
    | finished trouble | failed retry why pause => cases hends
    | cancel => cases hstops
    | live live => exact ⟨rfl, rfl, toldLive_resting live now every after⟩
    | start _ | stepped _ _ | tick | signedIn => exact ⟨rfl, rfl, rfl⟩
  | fresh | current _ _ _ | waiting _ _ _ _ | needsSignIn _ _ | needsAllow _ _ | broken _ _ =>
    cases hbusy

theorem verdict_busy (hbusy : link.isBusy = true) (schedule : Scheduling) (event : Event) :
    verdict schedule link event = .run := by
  unfold verdict
  rw [if_pos (.inr (.inl hbusy))]

theorem misheard_busy (hbusy : link.isBusy = true) (word : Live) :
    misheard link word = false := by
  cases link with
  | syncing first doing count after => rfl
  | fresh | current _ _ _ | waiting _ _ _ _ | needsSignIn _ _ | needsAllow _ _ | broken _ _ =>
    cases hbusy

/-- What is kept while a pass runs and nothing ends it. -/
structure Running (before after : Cell) : Prop where
  busy : ∃ link, after.link = some link ∧ link.isBusy = true
  cancel : after.cancel = before.cancel
  dirty : before.dirty = true → after.dirty = true

theorem handle_running {turn : Turn} {link : Link} {event : Event}
    (hlink : turn.cell.link = some link) (hbusy : link.isBusy = true)
    (hends : ends event = false) (hstops : stops event = false) :
    Running turn.cell (handle host depth turn event).cell ∧
      (event = .start .push → (handle host depth turn event).cell.dirty = true) := by
  obtain ⟨hnext, heffects, hrest⟩ := step_running hbusy hends hstops host.now turn.cell.interval
  have hmove : turn.move host link event = ⟨{ (turn.hear link event).cell with
      link := some (turn.next host link event) }, turn.fresh⟩ := by
    unfold Turn.move
    rw [heffects]
    rfl
  have hrunning : Running turn.cell (turn.move host link event).cell := by
    rw [hmove]
    refine ⟨⟨_, rfl, hnext⟩, rfl, fun hdirty => ?_⟩
    simp [Turn.hear, hdirty]
  have hheard : event = .start .push → (turn.move host link event).cell.dirty = true := by
    rintro rfl
    rw [hmove]
    simp [Turn.hear, hbusy]
  have hhandled := @handle_unfold host turn event
  generalize handle host depth turn event = result at hhandled ⊢
  cases hhandled with
  | unknown hnone =>
    rw [hlink] at hnone
    cases hnone
  | unasked was hwas hpoll =>
    refine ⟨⟨⟨link, hlink, hbusy⟩, rfl, id⟩, fun hpush => ?_⟩
    rw [hpoll] at hpush
    cases hpush
  | deferred was hwas hverdict | dropped was hwas hverdict =>
    rw [hlink, Option.some.injEq] at hwas
    subst hwas
    rw [verdict_busy hbusy] at hverdict
    cases hverdict
  | ran was hwas =>
    rw [hlink, Option.some.injEq] at hwas
    subst hwas
    have hsame : kind link.resting = kind (turn.next host link event).resting := hrest.symm
    have hruns : passEnded link (turn.next host link event) = false := by
      unfold passEnded Turn.next
      rw [hnext]
      simp
    have hsettled : ∀ turn' : Turn,
        turn'.settled link (turn.next host link event) = turn' := by
      intro turn'
      simp [Turn.settled, hruns]
    unfold after moveWatch
    simp only [if_pos hsame, Turn.owes, hruns, hsettled, Bool.false_and, Bool.false_eq_true,
      if_false, misheard_busy (show (turn.next host link event).isBusy = true from hnext)]
    exact ⟨hrunning, hheard⟩

theorem push_begins (hlink : turn.cell.link = some link) (hcurrent : kind link = .current)
    (hwindow : host.schedule = .window) :
    ∃ id generation, (handle host depth turn (.start .push)).cell.cancel = some id ∧
      .pass id generation ∈ (handle host depth turn (.start .push)).fresh ∧
      ∃ link, (handle host depth turn (.start .push)).cell.link = some link ∧ link.isBusy = true := by
  have hrun : verdict host.schedule link (.start .push) = .run := by simp [verdict, hwindow]
  rw [handle_ran hlink hrun (fun h => by cases h)]
  cases link with
  | current finished trouble live =>
    rw [after_begin_eq _ rfl rfl]
    exact ⟨turn.cell.made, nextGeneration turn.cell.passes, rfl,
      List.mem_append_right _ (List.mem_singleton.mpr rfl), _, rfl, rfl⟩
  | syncing _ _ _ _ | fresh | waiting _ _ _ _ | needsSignIn _ _ | needsAllow _ _ | broken _ _ =>
    cases hcurrent

/-- A pass that finishes with a push waiting is followed by another. -/
theorem handle_reruns {turn : Turn} {link : Link} (hlink : turn.cell.link = some link)
    (hbusy : link.isBusy = true) (hdirty : turn.cell.dirty = true)
    (hwindow : host.schedule = .window) (trouble : List Trouble) :
    ∃ id generation, (handle host depth turn (.finished trouble)).cell.cancel = some id ∧
      .pass id generation ∈ (handle host depth turn (.finished trouble)).fresh ∧
      ∃ link, (handle host depth turn (.finished trouble)).cell.link = some link ∧
        link.isBusy = true := by
  rw [handle_ran hlink (verdict_busy hbusy _ (.finished trouble)) (fun h => by cases h)]
  cases link with
  | syncing first doing count began =>
    have hmoved := @moveWatch_dirty host
      (turn.move host (.syncing first doing count began) (.finished trouble))
      (.syncing first doing count began)
      (turn.next host (.syncing first doing count began) (.finished trouble))
    have hmoveDirty : (turn.move host (.syncing first doing count began)
        (.finished trouble)).cell.dirty = true := by
      unfold Turn.move
      rw [(effects_said host.now _ _).2]
      simp [Turn.hear, hdirty]
    have hshape := @moveWatch_link host _ (@handle_live host depth) turn
      (.syncing first doing count began) (.finished trouble)
    have hfollowed := @after_followed host (handle host depth)
      (turn.move host (.syncing first doing count began) (.finished trouble))
      (.syncing first doing count began)
      (turn.next host (.syncing first doing count began) (.finished trouble)) (.finished trouble)
    generalize after host (handle host depth)
      (turn.move host (.syncing first doing count began) (.finished trouble))
      (.syncing first doing count began)
      (turn.next host (.syncing first doing count began) (.finished trouble))
      (.finished trouble) = result at hfollowed ⊢
    generalize moveWatch host (handle host depth)
      (turn.move host (.syncing first doing count began) (.finished trouble))
      (.syncing first doing count began)
      (turn.next host (.syncing first doing count began) (.finished trouble)) = moved at *
    have howes : moved.owes (.syncing first doing count began)
        (turn.next host (.syncing first doing count began) (.finished trouble))
        (.finished trouble) = true := by
      unfold Turn.owes
      rw [hmoved, hmoveDirty]
      rfl
    cases hfollowed with
    | owed =>
      obtain ⟨held, hheld, hkind⟩ := held_of_some hshape
      exact push_begins hheld hkind hwindow
    | misheard hnot | settled hnot =>
      rw [howes] at hnot
      cases hnot
  | fresh | current _ _ _ | waiting _ _ _ _ | needsSignIn _ _ | needsAllow _ _ | broken _ _ =>
    cases hbusy

def passWord : Event → Bool
  | .stepped _ _ | .finished _ | .failed _ _ _ | .cancel => true
  | _ => false

theorem verdict_passWord (hword : passWord event = true) (schedule : Scheduling) (link : Link) :
    verdict schedule link event = .run := by
  unfold verdict
  split
  · rfl
  · cases event with
    | start _ | live _ | tick | signedIn => cases hword
    | stepped _ _ | finished _ | failed _ _ _ | cancel => rfl

/-- Such a word finds no pass running, and changes nothing. -/
theorem handle_idle {turn : Turn} {link : Link} {event : Event} (h : Minds turn.cell)
    (hlink : turn.cell.link = some link) (hidle : link.isBusy = false)
    (hword : passWord event = true) :
    (handle host depth turn event).cell.link = turn.cell.link := by
  have hstep : step link event host.now turn.cell.interval = (link, []) := by
    cases link with
    | syncing first doing count after => cases hidle
    | fresh | current _ _ _ | waiting _ _ _ _ | needsSignIn _ _ | needsAllow _ _ | broken _ _ =>
      cases event with
      | stepped _ _ | finished _ | failed _ _ _ | cancel => rfl
      | start _ | live _ | tick | signedIn => cases hword
  have hnext : turn.next host link event = link := by
    unfold Turn.next
    rw [hstep]
  have hruns : passEnded link link = false := by
    unfold passEnded
    rw [hidle]
    rfl
  have hlast : (turn.move host link event).cell.lastWord = turn.cell.lastWord := by
    unfold Cell.lastWord
    rw [move_said, hear_said]
    cases event <;> first | rfl | cases hword
  have hsettled : ∀ turn' : Turn, turn'.settled link link = turn' := by
    intro turn'
    simp [Turn.settled, hruns]
  have hpoll : event ≠ .start .poll := by
    rintro rfl
    cases hword
  rw [handle_ran hlink (verdict_passWord hword _ _) hpoll]
  unfold after moveWatch
  simp only [hnext, if_true, Turn.owes, hruns, hsettled, hlast, misheard_minds hlink h,
    Bool.false_and, Bool.false_eq_true, if_false]
  rw [move_link, hnext, hlink]

end Mailo.Engine.Schedule
