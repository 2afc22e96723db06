import Mailo.Engine.Schedule.Scheduler

/-!
# What one event does to an account

A word about being connected begins and stops nothing. Whatever is handled only adds to what was
set going, and a wake it makes stale it replaces.
-/

namespace Mailo.Engine.Schedule

open Domain Logic

variable {host : Host}

/-- What handling `event` with one more call of itself comes to. -/
inductive Handled (host : Host) (fuel : Nat) (turn : Turn) (event : Event) : Turn → Prop
  | unknown : turn.cell.link = none → Handled host fuel turn event turn
  | unasked (link : Link) : turn.cell.link = some link → event = .start .poll →
      turn.cell.interval = manually → Handled host fuel turn event turn
  | deferred (link : Link) : turn.cell.link = some link →
      verdict host.schedule link event = .defer →
        Handled host fuel turn event (reconcileWatch host (handle host fuel) turn.defer link)
  | dropped (link : Link) : turn.cell.link = some link →
      verdict host.schedule link event = .drop →
        Handled host fuel turn event (reconcileWatch host (handle host fuel) turn link)
  | ran (link : Link) : turn.cell.link = some link → verdict host.schedule link event = .run →
      ¬(event = .start .poll ∧ turn.cell.interval = manually) →
        Handled host fuel turn event (after host (handle host fuel) (turn.move host link event) link
          (turn.next host link event) event)

theorem handle_handled (fuel : Nat) (turn : Turn) (event : Event) :
    Handled host fuel turn event (handle host (fuel + 1) turn event) := by
  unfold handle
  split
  · rename_i hlink
    exact .unknown hlink
  · rename_i link hlink
    split
    · rename_i hasked
      exact .unasked link hlink hasked.1 hasked.2
    · rename_i hasked
      split
      · rename_i hverdict
        exact .deferred link hlink hverdict
      · rename_i hverdict
        exact .dropped link hlink hverdict
      · rename_i hverdict
        exact .ran link hlink hverdict hasked

variable {turn : Turn} {event : Event} {link : Link}

theorem handle_unknown (fuel : Nat) (h : turn.cell.link = none) (event : Event) :
    handle host fuel turn event = turn := by
  cases fuel with
  | zero => rfl
  | succ fuel => simp only [handle, h]

/-- What follows a step, once the watch has moved with the link. -/
inductive Followed (again : Turn → Event → Turn) (moved : Turn) (was next : Link) (event : Event) :
    Turn → Prop
  | owed : moved.owes was next event = true →
      Followed again moved was next event (again (moved.settled was next) (.start .push))
  | misheard : moved.owes was next event = false → misheard next moved.cell.lastWord = true →
      Followed again moved was next event
        (again (moved.settled was next) (.live moved.cell.lastWord))
  | settled : moved.owes was next event = false → misheard next moved.cell.lastWord = false →
      Followed again moved was next event (moved.settled was next)

theorem after_followed (again : Turn → Event → Turn) (turn : Turn) (was next : Link)
    (event : Event) :
    Followed again (moveWatch host again turn was next) was next event
      (after host again turn was next event) := by
  unfold after
  dsimp only
  split
  · rename_i howes
    exact .owed howes
  · rename_i howes
    split
    · rename_i hmisheard
      exact .misheard (Bool.eq_false_iff.mpr howes) hmisheard
    · rename_i hmisheard
      exact .settled (Bool.eq_false_iff.mpr howes) (Bool.eq_false_iff.mpr hmisheard)

/-! ## A wake that counts -/

/-- An event that a timer brings. -/
def isWake : Event → Bool
  | .tick | .start .poll => true
  | _ => false

/-- A timer for the account was set, and no later one replaced it. -/
def Armed (turn : Turn) : Prop :=
  ∃ generation wait event, turn.cell.wakes = some generation ∧ isWake event = true ∧
    .timer generation wait event ∈ turn.fresh

/-- A task set going after the first `made`: its number is new, or it brings a wake. -/
def New (made : Nat) : Task → Prop
  | .pass id _ | .watch id => made ≤ id
  | .timer _ _ event => isWake event = true

theorem New.mono {made later : Nat} (h : made ≤ later) {task : Task} (k : New later task) :
    New made task := by
  cases task with
  | pass id _ | watch id => exact h.trans k
  | timer _ _ event => exact k

/-- More was set going, no wake was made stale but for a newer one, and the interval is as it was. -/
structure Grows (before after : Turn) : Prop where
  fresh : ∃ more, after.fresh = before.fresh ++ more ∧ ∀ task ∈ more, New before.cell.made task
  made : before.cell.made ≤ after.cell.made
  every : after.cell.every = before.cell.every
  woken : after.cell.wakes = before.cell.wakes ∨ Armed after

namespace Grows

theorem of_same {before after : Turn} (fresh : after.fresh = before.fresh)
    (made : after.cell.made = before.cell.made) (every : after.cell.every = before.cell.every)
    (wakes : after.cell.wakes = before.cell.wakes) : Grows before after :=
  ⟨⟨[], by rw [fresh, List.append_nil], fun _ h => by cases h⟩, Nat.le_of_eq made.symm, every,
    .inl wakes⟩

theorem refl (turn : Turn) : Grows turn turn := of_same rfl rfl rfl rfl

theorem trans {first second third : Turn} (h : Grows first second) (k : Grows second third) :
    Grows first third := by
  obtain ⟨⟨more, hmore, hnew⟩, hmade, hevery, hwoken⟩ := h
  obtain ⟨⟨rest, hrest, hlate⟩, hlaterMade, hstill, hlater⟩ := k
  refine ⟨⟨more ++ rest, by rw [hrest, hmore, List.append_assoc], fun task htask => ?_⟩,
    hmade.trans hlaterMade, hstill.trans hevery, ?_⟩
  · rcases List.mem_append.mp htask with htask | htask
    · exact hnew task htask
    · exact (hlate task htask).mono hmade
  · rcases hlater with hsame | harmed
    · rcases hwoken with hfirst | ⟨generation, wait, event, hwakes, hwake, htimer⟩
      · exact .inl (hsame.trans hfirst)
      · refine .inr ⟨generation, wait, event, hsame.trans hwakes, hwake, ?_⟩
        rw [hrest]
        exact List.mem_append_left _ htimer
    · exact .inr harmed

/-- A wake once set is not lost. -/
theorem armed {before after : Turn} (h : Grows before after) (k : Armed before) : Armed after := by
  rcases h.woken with hsame | harmed
  · obtain ⟨generation, wait, event, hwakes, hwake, htimer⟩ := k
    obtain ⟨more, hmore, _⟩ := h.fresh
    refine ⟨generation, wait, event, hsame.trans hwakes, hwake, ?_⟩
    rw [hmore]
    exact List.mem_append_left _ htimer
  · exact harmed

end Grows

theorem armed_arm (turn : Turn) (wait : Duration) (wake : isWake event = true) :
    Armed (turn.arm wait event) :=
  ⟨_, wait, event, rfl, wake, List.mem_append_right _ (List.mem_singleton.mpr rfl)⟩

theorem arm_grows (turn : Turn) (wait : Duration) (wake : isWake event = true) :
    Grows turn (turn.arm wait event) := by
  refine ⟨⟨_, rfl, fun task htask => ?_⟩, Nat.le_refl _, rfl, .inr (armed_arm turn wait wake)⟩
  rw [List.mem_singleton.mp htask]
  exact wake

theorem effect_grows (now : DateTime) (turn : Turn) (effect : Effect) :
    Grows turn (turn.effect now effect) := by
  cases effect with
  | runPass =>
    refine ⟨⟨_, rfl, fun task htask => ?_⟩, Nat.le_succ _, rfl, .inl rfl⟩
    rw [List.mem_singleton.mp htask]
    exact Nat.le_refl _
  | cancelPass => exact .of_same rfl rfl rfl rfl
  | wakeAt due => exact arm_grows turn _ rfl

theorem effects_grow (now : DateTime) (effects : List Effect) (turn : Turn) :
    Grows turn (effects.foldl (Turn.effect now) turn) := by
  induction effects generalizing turn with
  | nil => exact .refl turn
  | cons effect rest ih => exact (effect_grows now turn effect).trans (ih _)

theorem move_grows (turn : Turn) (link : Link) (event : Event) :
    Grows turn (turn.move host link event) := by
  have hheard : Grows turn ⟨{ (turn.hear link event).cell with
      link := some (turn.next host link event) }, (turn.hear link event).fresh⟩ :=
    .of_same rfl rfl rfl rfl
  exact hheard.trans (effects_grow host.now _ _)

section Again

variable {again : Turn → Event → Turn} (grows : ∀ turn event, Grows turn (again turn event))

include grows

theorem reconcileWatch_grows (turn : Turn) (link : Link) :
    Grows turn (reconcileWatch host again turn link) := by
  unfold reconcileWatch
  split
  · refine ⟨⟨_, rfl, fun task htask => ?_⟩, Nat.le_succ _, rfl, .inl rfl⟩
    rw [List.mem_singleton.mp htask]
    exact Nat.le_refl _
  · have hstop : Grows turn turn.stopWatch := .of_same rfl rfl rfl rfl
    exact hstop.trans (grows _ _)
  · exact .refl turn

theorem moveWatch_grows (turn : Turn) (was next : Link) :
    Grows turn (moveWatch host again turn was next) := by
  unfold moveWatch
  split
  · exact .refl turn
  · exact reconcileWatch_grows grows turn next

theorem after_grows (turn : Turn) (was next : Link) (event : Event) :
    Grows turn (after host again turn was next event) := by
  have hmoved : Grows turn ((moveWatch host again turn was next).settled was next) :=
    (moveWatch_grows grows turn was next).trans (.of_same rfl rfl rfl rfl)
  have hfollowed := @after_followed host again turn was next event
  generalize after host again turn was next event = result at hfollowed ⊢
  cases hfollowed with
  | owed | misheard => exact hmoved.trans (grows _ _)
  | settled => exact hmoved

end Again

theorem handle_grows (fuel : Nat) (turn : Turn) (event : Event) :
    Grows turn (handle host fuel turn event) := by
  induction fuel generalizing turn event with
  | zero => exact .refl turn
  | succ fuel ih =>
    have hhandled := @handle_handled host fuel turn event
    generalize handle host (fuel + 1) turn event = result at hhandled ⊢
    cases hhandled with
    | unknown | unasked => exact .refl turn
    | deferred link => exact (arm_grows turn _ rfl).trans (reconcileWatch_grows ih _ link)
    | dropped link => exact reconcileWatch_grows ih turn link
    | ran link => exact (move_grows turn link event).trans (after_grows ih _ link _ event)

/-! ## A word about being connected -/

theorem verdict_live (schedule : Scheduling) (link : Link) (live : Live) :
    verdict schedule link (.live live) = .run := by
  unfold verdict
  split <;> rfl

theorem step_live (link : Link) (live : Live) (now : DateTime) (every : Duration) :
    step link (.live live) now every = toldLive live now every link := by
  cases link <;> rfl

theorem toldLive_isBusy (live : Live) (now : DateTime) (every : Duration) (link : Link) :
    (toldLive live now every link).1.isBusy = link.isBusy := by
  unfold toldLive
  split
  · rfl
  · split <;> rfl
  · rfl

theorem toldLive_kind (live : Live) (now : DateTime) (every : Duration) (link : Link) :
    kind (toldLive live now every link).1 = kind link := by
  unfold toldLive
  split
  · rfl
  · split <;> rfl
  · rfl

theorem toldLive_resting (live : Live) (now : DateTime) (every : Duration) (link : Link) :
    kind (toldLive live now every link).1.resting = kind link.resting := by
  induction link with
  | syncing first doing count after ih => exact ih
  | current finished trouble was =>
    unfold toldLive
    split <;> rfl
  | fresh | waiting _ _ _ _ | needsSignIn _ _ | needsAllow _ _ | broken _ _ => rfl

theorem toldLive_effects (live : Live) (now : DateTime) (every : Duration) (link : Link) :
    (toldLive live now every link).2 = [] ∨
      ∃ due, (toldLive live now every link).2 = [.wakeAt due] := by
  unfold toldLive
  split
  · exact .inl rfl
  · split
    · exact .inl rfl
    · exact .inr ⟨_, rfl⟩
  · exact .inl rfl

/-- Nothing begins and nothing stops: the link keeps its state, and only timers are set. -/
structure Quiet (before after : Turn) : Prop where
  cell : after.cell = { before.cell with
    link := after.cell.link, wakes := after.cell.wakes, said := after.cell.said }
  link : after.cell.link.map (fun link => (kind link, kind link.resting)) =
    before.cell.link.map fun link => (kind link, kind link.resting)
  fresh : ∃ timers, after.fresh = before.fresh ++ timers ∧
    ∀ task ∈ timers, ∃ generation wait event, task = .timer generation wait event

namespace Quiet

theorem refl (turn : Turn) : Quiet turn turn :=
  ⟨rfl, rfl, [], (List.append_nil _).symm, fun _ h => by cases h⟩

theorem trans {first second third : Turn} (h : Quiet first second) (k : Quiet second third) :
    Quiet first third := by
  obtain ⟨more, hmore, htimers⟩ := h.fresh
  obtain ⟨rest, hrest, hothers⟩ := k.fresh
  refine ⟨?_, k.link.trans h.link, more ++ rest, by rw [hrest, hmore, List.append_assoc], ?_⟩
  · have hsecond := k.cell
    rw [h.cell] at hsecond
    exact hsecond
  · intro task htask
    rcases List.mem_append.mp htask with htask | htask
    · exact htimers task htask
    · exact hothers task htask

variable {after before : Turn}

theorem watch (h : Quiet before after) :
    after.cell.watch = before.cell.watch := by rw [h.cell]

theorem made (h : Quiet before after) :
    after.cell.made = before.cell.made := by rw [h.cell]

theorem pusher (h : Quiet before after) :
    after.cell.pusher = before.cell.pusher := by rw [h.cell]

end Quiet

theorem effects_quiet {now : DateTime} {effects : List Effect}
    (wakes : effects = [] ∨ ∃ due, effects = [.wakeAt due]) :
    Quiet turn (effects.foldl (Turn.effect now) turn) := by
  rcases wakes with rfl | ⟨due, rfl⟩
  · exact .refl turn
  · refine ⟨rfl, rfl, _, rfl, ?_⟩
    intro task htask
    exact ⟨_, _, _, List.mem_singleton.mp htask⟩

theorem next_live (turn : Turn) (link : Link) (live : Live) :
    turn.next host link (.live live) =
      (toldLive live host.now turn.cell.interval link).1 := by
  unfold Turn.next
  rw [step_live]

theorem move_live {turn : Turn} {link : Link} (hlink : turn.cell.link = some link) (live : Live) :
    Quiet turn (turn.move host link (.live live)) := by
  have hwakes := toldLive_effects live host.now turn.cell.interval link
  rw [← step_live] at hwakes
  refine .trans ?_ (effects_quiet hwakes)
  refine ⟨?_, ?_, [], (List.append_nil _).symm, fun _ h => by cases h⟩
  · simp [Turn.hear]
  · rw [hlink, next_live]
    simp only [Option.map_some, toldLive_kind, toldLive_resting]

/-- Handling a word about being connected begins and stops nothing. -/
theorem handle_live (fuel : Nat) (turn : Turn) (live : Live) :
    Quiet turn (handle host fuel turn (.live live)) := by
  induction fuel generalizing turn live with
  | zero => exact .refl turn
  | succ fuel ih =>
    unfold handle
    split
    · exact .refl turn
    · rename_i link hlink
      rw [if_neg (by simp), verdict_live]
      have hmoved := @move_live host turn link hlink live
      have hrest : kind link.resting = kind (turn.next host link (.live live)).resting := by
        rw [next_live, toldLive_resting]
      have hidle : passEnded link (turn.next host link (.live live)) = false := by
        unfold passEnded
        rw [next_live, toldLive_isBusy]
        cases link.isBusy <;> rfl
      have hsettled : ∀ turn' : Turn,
          turn'.settled link (turn.next host link (.live live)) = turn' := by
        intro turn'
        simp [Turn.settled, hidle]
      unfold after moveWatch
      simp only [if_pos hrest, Turn.owes, hidle, hsettled, Bool.false_and, Bool.false_eq_true,
        if_false]
      split
      · exact hmoved.trans (ih _ _)
      · exact hmoved

/-! ## What is held after an event -/

theorem effects_cell (now : DateTime) (effects : List Effect) (turn : Turn) :
    (effects.foldl (Turn.effect now) turn).cell.link = turn.cell.link ∧
      (effects.foldl (Turn.effect now) turn).cell.watch = turn.cell.watch ∧
      (effects.foldl (Turn.effect now) turn).cell.pusher = turn.cell.pusher := by
  induction effects generalizing turn with
  | nil => exact ⟨rfl, rfl, rfl⟩
  | cons effect rest ih =>
    obtain ⟨hlink, hwatch, hpusher⟩ := ih (turn.effect now effect)
    rw [List.foldl_cons, hlink, hwatch, hpusher]
    cases effect with
    | runPass | cancelPass | wakeAt due => exact ⟨rfl, rfl, rfl⟩

theorem move_link (turn : Turn) (link : Link) (event : Event) :
    (turn.move host link event).cell.link = some (turn.next host link event) :=
  (effects_cell host.now _ _).1

theorem move_watch (turn : Turn) (link : Link) (event : Event) :
    (turn.move host link event).cell.watch = turn.cell.watch :=
  (effects_cell host.now _ _).2.1

theorem move_pusher (turn : Turn) (link : Link) (event : Event) :
    (turn.move host link event).cell.pusher = turn.cell.pusher :=
  (effects_cell host.now _ _).2.2

/-- A link of the same shape rests in a state of the same kind. -/
theorem resting_of_shape {other : Link} {held : Option Link}
    (h : held.map (fun link => (kind link, kind link.resting)) =
      some (kind other, kind other.resting)) (hheld : held = some link) :
    kind link = kind other ∧ kind link.resting = kind other.resting := by
  rw [hheld, Option.map_some, Option.some.injEq, Prod.mk.injEq] at h
  exact h

/-- What was held is of the same kind as what is held now. -/
theorem held_of_shape {before now : Option Link}
    (h : now.map (fun link => (kind link, kind link.resting)) =
      before.map fun link => (kind link, kind link.resting)) (hlink : now = some link) :
    ∃ was, before = some was ∧ kind was = kind link ∧ kind was.resting = kind link.resting := by
  rw [hlink] at h
  cases before with
  | none => cases h
  | some was =>
    simp only [Option.map_some, Option.some.injEq, Prod.mk.injEq] at h
    exact ⟨was, rfl, h.1.symm, h.2.symm⟩

section Again

variable {again : Turn → Event → Turn}
  (quiet : ∀ turn live, Quiet turn (again turn (.live live)))

include quiet

theorem reconcileWatch_link (turn : Turn) (link : Link) :
    (reconcileWatch host again turn link).cell.link.map
      (fun link => (kind link, kind link.resting)) =
      turn.cell.link.map fun link => (kind link, kind link.resting) := by
  unfold reconcileWatch
  split
  · rfl
  · exact (quiet turn.stopWatch .polling).link
  · rfl

theorem moveWatch_link (turn : Turn) (link : Link) (event : Event) :
    (moveWatch host again (turn.move host link event) link (turn.next host link event)).cell.link.map
      (fun link => (kind link, kind link.resting)) =
      some (kind (turn.next host link event), kind (turn.next host link event).resting) := by
  unfold moveWatch
  split
  · rw [move_link]
    rfl
  · rw [reconcileWatch_link quiet, move_link]
    rfl

end Again

/-- A start that begins a pass sees to no watch. -/
theorem after_begin_eq (again : Turn → Event → Turn) (hidle : link.isBusy = false)
    (hstep : step link event host.now turn.cell.interval = Logic.begin link) :
    after host again (turn.move host link event) link (turn.next host link event) event =
      turn.move host link event := by
  have hnext : turn.next host link event = (Logic.begin link).1 := by
    unfold Turn.next
    rw [hstep]
  have hsettled : (turn.move host link event).settled link (Logic.begin link).1 =
      turn.move host link event := by
    simp [Turn.settled, passEnded, hidle]
  unfold after moveWatch
  simp only [hnext, Logic.begin, Link.resting, if_true, Turn.owes, passEnded, hidle, misheard,
    Bool.false_and, Bool.false_eq_true, if_false]
  exact hsettled

/-- An account that is known stays known, whatever is handled. -/
theorem handle_known (fuel : Nat) (h : (handle host fuel turn event).cell.link = none) :
    turn.cell.link = none := by
  have hnone {before now : Option Link}
      (hshape : now.map (fun link => (kind link, kind link.resting)) =
        before.map fun link => (kind link, kind link.resting)) (hnow : now = none) :
      before = none := by
    rw [hnow] at hshape
    exact Option.map_eq_none_iff.mp hshape.symm
  induction fuel generalizing turn event with
  | zero => exact h
  | succ fuel ih =>
    have hhandled := @handle_handled host fuel turn event
    generalize handle host (fuel + 1) turn event = result at hhandled h
    cases hhandled with
    | unknown hlink => exact hlink
    | unasked => exact h
    | deferred link => exact hnone (reconcileWatch_link (@handle_live host fuel) turn.defer link) h
    | dropped link => exact hnone (reconcileWatch_link (@handle_live host fuel) turn link) h
    | ran link hlink =>
      have hshape := @moveWatch_link host _ (@handle_live host fuel) turn link event
      have hfollowed := @after_followed host (handle host fuel) (turn.move host link event) link
        (turn.next host link event) event
      generalize after host (handle host fuel) (turn.move host link event) link
        (turn.next host link event) event = result at hfollowed h
      generalize moveWatch host (handle host fuel) (turn.move host link event) link
        (turn.next host link event) = moved at hfollowed hshape
      have hmoved : (moved.settled link (turn.next host link event)).cell.link = none := by
        cases hfollowed with
        | owed | misheard => exact ih h
        | settled => exact h
      rw [show moved.cell.link = none from hmoved] at hshape
      cases hshape

/-- The watch is seen to after an account is taken on, which sets no wake aside. -/
theorem follow_grows (listed : Listed) (cell : Cell) :
    Grows (adopt host listed cell) (follow host listed cell) := by
  unfold follow
  dsimp only
  split
  · exact .refl _
  · exact reconcileWatch_grows (@handle_grows host depth) _ _

theorem follow_held {listed : Listed} {cell : Cell}
    (hlink : (follow host listed cell).cell.link = some link) :
    ∃ was, (adopt host listed cell).cell.link = some was ∧ kind was = kind link := by
  unfold follow at hlink
  dsimp only at hlink
  split at hlink
  · rename_i hnone
    rw [hnone] at hlink
    cases hlink
  · rename_i held hheld
    obtain ⟨was, hwas, hsame, _⟩ :=
      held_of_shape (reconcileWatch_link (@handle_live host depth) _ held) hlink
    exact ⟨was, hwas, hsame⟩

end Mailo.Engine.Schedule
