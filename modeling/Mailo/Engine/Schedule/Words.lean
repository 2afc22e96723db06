import Mailo.Engine.Schedule.Turns

/-!
# What a watch says about being connected

A current link is kept up to date as its watch last said, and an account without a watch is polled.
Handling an event calls itself at most twice over, so the calls allowed to it are enough.
-/

namespace Mailo.Engine.Schedule

open Domain Logic

variable {host : Host}

/-- Once `live` is heard, it is the last word. -/
def Stands (cell : Cell) (live : Live) : Prop := cell.watch.isSome = true ∨ cell.lastWord = live

/-- An account without a watch has heard nothing. -/
def Unsaid (cell : Cell) : Prop := cell.watch = none → cell.said = none

variable {cell : Cell} {link : Link} {turn : Turn} {event : Event} {finished : DateTime}
  {trouble : List Trouble}

theorem Unsaid.lastWord (h : Unsaid cell) (hwatch : cell.watch = none) :
    cell.lastWord = .polling := by
  unfold Cell.lastWord
  rw [h hwatch]
  rfl

theorem effects_said (now : DateTime) (effects : List Effect) (turn : Turn) :
    (effects.foldl (Turn.effect now) turn).cell.said = turn.cell.said ∧
      (effects.foldl (Turn.effect now) turn).cell.dirty = turn.cell.dirty := by
  induction effects generalizing turn with
  | nil => exact ⟨rfl, rfl⟩
  | cons effect rest ih =>
    obtain ⟨hsaid, hdirty⟩ := ih (turn.effect now effect)
    rw [List.foldl_cons, hsaid, hdirty]
    cases effect with
    | runPass | cancelPass | wakeAt due => exact ⟨rfl, rfl⟩

theorem move_said (turn : Turn) (link : Link) (event : Event) :
    (turn.move host link event).cell.said = (turn.hear link event).cell.said :=
  (effects_said host.now _ _).1

theorem move_lastWord {turn : Turn} {live : Live} (h : Stands turn.cell live) (link : Link) :
    (turn.move host link (.live live)).cell.lastWord = live := by
  unfold Cell.lastWord
  rw [move_said]
  unfold Turn.hear
  cases hwatch : turn.cell.watch.isSome with
  | true => rfl
  | false =>
    rcases h with hsome | hlast
    · rw [hwatch] at hsome
      cases hsome
    · exact hlast

theorem misheard_told (live : Live) (now : DateTime) (every : Duration) (link : Link) :
    misheard (toldLive live now every link).1 live = false := by
  cases link with
  | current finished trouble was =>
    unfold toldLive misheard
    by_cases hwas : was = live
    · simp [hwas]
    · simp [hwas]
  | syncing _ _ _ _ | fresh | waiting _ _ _ _ | needsSignIn _ _ | needsAllow _ _ | broken _ _ => rfl

theorem after_live (again : Turn → Event → Turn) (turn : Turn) (link : Link) (live : Live) :
    after host again (turn.move host link (.live live)) link (turn.next host link (.live live))
      (.live live) =
      if misheard (turn.next host link (.live live))
          (turn.move host link (.live live)).cell.lastWord then
        again (turn.move host link (.live live))
          (.live (turn.move host link (.live live)).cell.lastWord)
      else turn.move host link (.live live) := by
  have hrest : kind link.resting = kind (turn.next host link (.live live)).resting := by
    rw [next_live, toldLive_resting]
  have hidle : passEnded link (turn.next host link (.live live)) = false := by
    unfold passEnded
    rw [next_live, toldLive_isBusy]
    cases link.isBusy <;> rfl
  have hsettled : ∀ turn' : Turn,
      turn'.settled link (turn.next host link (.live live)) = turn' := by
    intro turn'
    simp [Turn.settled, hidle]
  unfold after moveWatch
  simp only [if_pos hrest, Turn.owes, hidle, hsettled, Bool.false_and, Bool.false_eq_true, if_false]

variable {live : Live}

variable (fuel : Nat)

/-- A word that stands is handled at once. -/
theorem handle_stands (hlink : turn.cell.link = some link) (h : Stands turn.cell live) :
    handle host (fuel + 1) turn (.live live) = turn.move host link (.live live) := by
  have hhandled := @handle_handled host fuel turn (.live live)
  generalize handle host (fuel + 1) turn (.live live) = result at hhandled ⊢
  cases hhandled with
  | unknown hnone =>
    rw [hlink] at hnone
    cases hnone
  | unasked _ _ hpoll => cases hpoll
  | deferred _ _ hverdict | dropped _ _ hverdict =>
    rw [verdict_live] at hverdict
    cases hverdict
  | ran was hwas =>
    rw [hlink, Option.some.injEq] at hwas
    subst hwas
    rw [after_live, move_lastWord h, next_live, misheard_told]
    rfl

theorem stands_lastWord (cell : Cell) : Stands cell cell.lastWord := .inr rfl

theorem stands_stopped (turn : Turn) : Stands turn.stopWatch.cell .polling := .inr rfl

theorem handle_stands_fuel (h : Stands turn.cell live) :
    handle host (fuel + 1) turn (.live live) = handle host 1 turn (.live live) := by
  cases hlink : turn.cell.link with
  | none => simp only [handle, hlink]
  | some link => rw [handle_stands fuel hlink h, handle_stands 0 hlink h]

theorem reconcileWatch_fuel (turn : Turn) (link : Link) :
    reconcileWatch host (handle host (fuel + 1)) turn link =
      reconcileWatch host (handle host 1) turn link := by
  unfold reconcileWatch
  split
  · rfl
  · exact handle_stands_fuel fuel (stands_stopped turn)
  · rfl

theorem moveWatch_fuel (turn : Turn) (was next : Link) :
    moveWatch host (handle host (fuel + 1)) turn was next =
      moveWatch host (handle host 1) turn was next := by
  unfold moveWatch
  split
  · rfl
  · exact reconcileWatch_fuel fuel turn next

theorem handle_congr {fuel other : Nat}
    (hwatch : ∀ turn link, reconcileWatch host (handle host fuel) turn link =
      reconcileWatch host (handle host other) turn link)
    (hafter : ∀ moved was next, after host (handle host fuel) moved was next event =
      after host (handle host other) moved was next event) :
    handle host (fuel + 1) turn event = handle host (other + 1) turn event := by
  unfold handle
  cases turn.cell.link with
  | none => rfl
  | some link =>
    dsimp only
    rw [hwatch, hwatch, hafter]

theorem handle_push_fuel (turn : Turn) :
    handle host (fuel + 2) turn (.start .push) = handle host 2 turn (.start .push) := by
  refine handle_congr (reconcileWatch_fuel fuel) fun moved was next => ?_
  unfold after
  dsimp only
  rw [moveWatch_fuel]
  split
  · rename_i howes
    simp [Turn.owes, finishedCurrent] at howes
  · split
    · exact handle_stands_fuel fuel (stands_lastWord _)
    · rfl

theorem handle_fuel (turn : Turn) (event : Event) :
    handle host (fuel + 3) turn event = handle host 3 turn event := by
  refine handle_congr (fun turn link => ?_) fun moved was next => ?_
  · rw [reconcileWatch_fuel (fuel + 1), reconcileWatch_fuel 1]
  · unfold after
    dsimp only
    rw [moveWatch_fuel (fuel + 1), moveWatch_fuel 1]
    split
    · exact handle_push_fuel fuel _
    · split
      · exact (handle_stands_fuel (fuel + 1) (.inr rfl)).trans (handle_stands_fuel 1 (.inr rfl)).symm
      · rfl

theorem handle_depth (turn : Turn) (event : Event) :
    handle host (depth + fuel) turn event = handle host depth turn event := by
  have hmore : depth + fuel = (fuel + 1) + 3 := by
    unfold depth
    omega
  rw [hmore, handle_fuel, ← handle_fuel 1]
  rfl

/-- What handling comes to, in terms of itself. -/
theorem handle_unfold (turn : Turn) (event : Event) :
    Handled host depth turn event (handle host depth turn event) := by
  have hhandled := @handle_handled host depth turn event
  rw [handle_depth 1] at hhandled
  exact hhandled

/-- What handling comes to where the verdict is to run. -/
theorem handle_ran {turn : Turn} {link : Link} {event : Event} (hlink : turn.cell.link = some link)
    (hrun : verdict host.schedule link event = .run) (hpoll : event ≠ .start .poll) :
    handle host depth turn event = after host (handle host depth) (turn.move host link event) link
      (turn.next host link event) event := by
  have hhandled := @handle_unfold host turn event
  generalize handle host depth turn event = result at hhandled ⊢
  cases hhandled with
  | unknown hnone =>
    rw [hlink] at hnone
    cases hnone
  | unasked _ _ hasked => exact absurd hasked hpoll
  | deferred was hwas hverdict | dropped was hwas hverdict =>
    rw [hlink, Option.some.injEq] at hwas
    subst hwas
    rw [hrun] at hverdict
    cases hverdict
  | ran was hwas =>
    rw [hlink, Option.some.injEq] at hwas
    subst hwas
    rfl

/-! ## The link and the last word -/

/-- Without a watch nothing was said, and a link that is current, or will be again, is polled. -/
structure Settles (cell : Cell) : Prop where
  unsaid : Unsaid cell
  unwatched : cell.watch = none → ∀ link, cell.link = some link →
    ∀ finished trouble live, link.resting = .current finished trouble live → live = .polling

/-- A link that is current is kept up to date as the watch last said. -/
structure Minds (cell : Cell) : Prop extends Settles cell where
  current : ∀ finished trouble live, cell.link = some (.current finished trouble live) →
    live = cell.lastWord

theorem Settles.minds (h : Settles cell) (hwatch : cell.watch = none) : Minds cell :=
  ⟨h, fun finished trouble live hlink => by
    rw [h.unsaid.lastWord hwatch]
    exact h.unwatched hwatch _ hlink finished trouble live rfl⟩

/-- How an account without a link comes to be watched and heard: not at all. -/
theorem settles_of_new (hwatch : cell.watch = none) (hsaid : cell.said = none)
    {last : Option DateTime} {mail : Bool} {now : DateTime}
    (hlink : cell.link = some (linkFor last mail now)) : Minds cell := by
  refine Settles.minds ⟨fun _ => hsaid, fun _ link h finished trouble live hrest => ?_⟩ hwatch
  rw [hlink, Option.some.injEq] at h
  subst h
  unfold linkFor at hrest
  split at hrest
  · cases hrest
  · injection hrest with _ _ hlive
    exact hlive.symm

theorem toldLive_current {live now every} {was : Live}
    (h : (toldLive live now every link).1.resting = .current finished trouble was) :
    was = live := by
  induction link with
  | syncing first doing count after ih => exact ih h
  | current done troubles before =>
    unfold toldLive at h
    split at h
    · rename_i hsame
      injection h with _ _ hlive
      rw [← hlive, hsame]
    · injection h with _ _ hlive
      exact hlive.symm
  | fresh | waiting _ _ _ _ | needsSignIn _ _ | needsAllow _ _ | broken _ _ => cases h

/-- A word that stands is what the link then follows. -/
theorem minds_stands {turn : Turn} {live : Live} (unsaid : Unsaid turn.cell)
    (h : Stands turn.cell live) : Minds (handle host depth turn (.live live)).cell := by
  cases hlink : turn.cell.link with
  | none =>
    rw [handle_unknown depth hlink]
    refine ⟨⟨unsaid, fun _ link hfound => ?_⟩, fun _ _ _ hfound => ?_⟩
    · rw [hlink] at hfound
      cases hfound
    · rw [hlink] at hfound
      cases hfound
  | some link =>
    have hlast := @move_lastWord host turn live h link
    rw [show handle host depth turn (.live live) = _ from handle_stands 3 hlink h]
    have hunsaid : Unsaid (turn.move host link (.live live)).cell := by
      intro hwatch
      rw [move_watch] at hwatch
      rw [move_said]
      unfold Turn.hear
      simp only [hwatch, Option.isSome_none, Bool.false_eq_true, if_false]
      exact unsaid hwatch
    refine ⟨⟨hunsaid, fun hwatch found hfound finished trouble was hrest => ?_⟩,
      fun finished trouble was hfound => ?_⟩
    · rw [move_link, Option.some.injEq, next_live] at hfound
      subst hfound
      rw [toldLive_current hrest, ← hlast]
      exact hunsaid.lastWord hwatch
    · rw [move_link, Option.some.injEq, next_live] at hfound
      have hrest := congrArg Link.resting hfound
      rw [hlast]
      exact toldLive_current hrest

def wordless : Event → Bool
  | .live _ => false
  | _ => true

theorem step_resting (h : wordless event = true) {now : DateTime} {every : Duration}
    (hrest : (step link event now every).1.resting = .current finished trouble live) :
    live = .polling ∨
      ∃ finished trouble, link.resting = .current finished trouble live := by
  have hsame (hrest : link.resting = .current finished trouble live) : live = .polling ∨
      ∃ finished trouble, link.resting = .current finished trouble live :=
    .inr ⟨finished, trouble, hrest⟩
  unfold step at hrest
  split at hrest
  · rename_i first doing count after
    unfold running at hrest
    split at hrest
    · exact hsame hrest
    · injection hrest with _ _ hlive
      cases after with
      | current done troubles was => exact .inr ⟨done, troubles, by rw [← hlive]; rfl⟩
      | syncing _ _ _ _ | fresh | waiting _ _ _ _ | needsSignIn _ _ | needsAllow _ _ | broken _ _ =>
        exact .inl hlive.symm
    · rename_i retry why pause
      cases retry with
      | now | after named | needsReauth | needsGrant | fatal text => cases hrest
    · exact hsame hrest
    · cases h
    · exact hsame hrest
    · exact hsame hrest
    · exact hsame hrest
  · exact hsame hrest
  · exact hsame hrest
  · exact hsame hrest
  · exact hsame hrest
  · split at hrest
    · exact hsame hrest
    · exact hsame hrest
  · split at hrest
    · exact hsame hrest
    · exact hsame hrest
  · exact hsame hrest
  · exact hsame hrest
  · cases h
  · exact hsame hrest

theorem hear_said (h : wordless event = true) :
    (turn.hear link event).cell.said = turn.cell.said := by
  cases event with
  | live live => cases h
  | start _ | stepped _ _ | finished _ | failed _ _ _ | cancel | tick | signedIn => rfl

theorem move_settles {turn : Turn} {link : Link} {event : Event}
    (hlink : turn.cell.link = some link) (hwordless : wordless event = true)
    (h : Settles turn.cell) : Settles (turn.move host link event).cell := by
  refine ⟨fun hwatch => ?_, fun hwatch found hfound finished trouble live hrest => ?_⟩
  · rw [move_watch] at hwatch
    rw [move_said, hear_said hwordless]
    exact h.unsaid hwatch
  · rw [move_link, Option.some.injEq] at hfound
    rw [move_watch] at hwatch
    subst hfound
    rcases step_resting hwordless hrest with hpolling | ⟨done, troubles, hbefore⟩
    · exact hpolling
    · exact h.unwatched hwatch link hlink done troubles live hbefore

/-- What an event makes of the last word: it stands, or there is a watch that has said nothing yet,
or none. -/
structure Speech (before after : Cell) : Prop where
  made : before.made ≤ after.made
  word : (after.watch = before.watch ∧ after.lastWord = before.lastWord) ∨
    (after.lastWord = .polling ∧ ∀ id, after.watch = some id → before.made ≤ id)

namespace Speech

theorem refl (cell : Cell) : Speech cell cell := ⟨Nat.le_refl _, .inl ⟨rfl, rfl⟩⟩

theorem trans {first second third : Cell} (h : Speech first second) (k : Speech second third) :
    Speech first third := by
  refine ⟨h.made.trans k.made, ?_⟩
  rcases k.word with ⟨hwatch, hword⟩ | ⟨hword, hnew⟩
  · rcases h.word with ⟨hfirst, hsame⟩ | ⟨hpolling, hlater⟩
    · exact .inl ⟨hwatch.trans hfirst, hword.trans hsame⟩
    · exact .inr ⟨hword.trans hpolling, fun id hid => hlater id (hwatch ▸ hid)⟩
  · exact .inr ⟨hword, fun id hid => h.made.trans (hnew id hid)⟩

end Speech

theorem effects_made (now : DateTime) (effects : List Effect) (turn : Turn) :
    turn.cell.made ≤ (effects.foldl (Turn.effect now) turn).cell.made := by
  induction effects generalizing turn with
  | nil => exact Nat.le_refl _
  | cons effect rest ih =>
    refine Nat.le_trans ?_ (ih _)
    cases effect with
    | runPass => exact Nat.le_succ _
    | cancelPass | wakeAt due => exact Nat.le_refl _

theorem move_made (turn : Turn) (link : Link) (event : Event) :
    turn.cell.made ≤ (turn.move host link event).cell.made :=
  effects_made host.now (step link event host.now turn.cell.interval).2
    ⟨{ (turn.hear link event).cell with link := some (turn.next host link event) },
      (turn.hear link event).fresh⟩

theorem move_speech {turn : Turn} {link : Link} {event : Event} (h : wordless event = true) :
    Speech turn.cell (turn.move host link event).cell := by
  refine ⟨move_made turn link _, .inl ⟨move_watch turn link event, ?_⟩⟩
  unfold Cell.lastWord
  rw [move_said, hear_said h]

theorem speech_stands (h : turn.cell.lastWord = live) :
    Speech turn.cell (handle host depth turn (.live live)).cell := by
  cases hlink : turn.cell.link with
  | none =>
    rw [handle_unknown depth hlink]
    exact .refl _
  | some link =>
    rw [show handle host depth turn (.live live) = _ from handle_stands 3 hlink (.inr h)]
    refine ⟨move_made turn link _, .inl ⟨move_watch turn link _, ?_⟩⟩
    rw [move_lastWord (.inr h), h]

theorem reconcileWatch_speech (unsaid : Unsaid turn.cell) (link : Link) :
    Speech turn.cell (reconcileWatch host (handle host depth) turn link).cell := by
  unfold reconcileWatch decideWatch
  cases hwatch : turn.cell.watch with
  | none =>
    cases wanted turn.cell.pusher host.daemon link with
    | false => exact .refl _
    | true =>
      refine ⟨Nat.le_succ _, .inr ⟨unsaid.lastWord hwatch, fun id hid => ?_⟩⟩
      rw [← Option.some.inj hid]
  | some id =>
    cases wanted turn.cell.pusher host.daemon link with
    | false =>
      have hstopped : Speech turn.cell turn.stopWatch.cell :=
        ⟨Nat.le_refl _, .inr ⟨rfl, fun id hid => by cases hid⟩⟩
      exact hstopped.trans (speech_stands rfl)
    | true => exact .refl _

theorem unsaid_stopWatch (turn : Turn) : Unsaid turn.stopWatch.cell := fun _ => rfl

/-- Seeing to the watch keeps what is kept of words, and a watch that is stopped leaves a link that
is polled. -/
theorem reconcileWatch_minds {turn : Turn} {link : Link} (h : Settles turn.cell) :
    Settles (reconcileWatch host (handle host depth) turn link).cell ∧
      ((Minds turn.cell ∨ wanted turn.cell.pusher host.daemon link = false) →
        Minds (reconcileWatch host (handle host depth) turn link).cell) := by
  unfold reconcileWatch decideWatch
  cases hwatch : turn.cell.watch with
  | none =>
    cases hwanted : wanted turn.cell.pusher host.daemon link with
    | false => exact ⟨h, fun _ => h.minds hwatch⟩
    | true =>
      have hbegun : Settles turn.beginWatch.cell :=
        ⟨fun hnone => (by cases hnone), fun hnone => (by cases hnone)⟩
      refine ⟨hbegun, fun hminds => ⟨hbegun, ?_⟩⟩
      rcases hminds with hminds | hunwanted
      · exact hminds.current
      · cases hunwanted
  | some id =>
    cases hwanted : wanted turn.cell.pusher host.daemon link with
    | false =>
      have hminds := @minds_stands host turn.stopWatch .polling (unsaid_stopWatch turn) (.inr rfl)
      exact ⟨hminds.toSettles, fun _ => hminds⟩
    | true =>
      refine ⟨h, fun hminds => ?_⟩
      rcases hminds with hminds | hunwanted
      · exact hminds
      · cases hunwanted

theorem moveWatch_minds {turn : Turn} {was next : Link} (hlink : turn.cell.link = some next)
    (h : Settles turn.cell) :
    Settles (moveWatch host (handle host depth) turn was next).cell ∧
      ((moveWatch host (handle host depth) turn was next).cell.link = some next ∨
        Minds (moveWatch host (handle host depth) turn was next).cell) := by
  unfold moveWatch
  split
  · exact ⟨h, .inl hlink⟩
  · obtain ⟨hsettles, hminds⟩ := @reconcileWatch_minds host turn next h
    refine ⟨hsettles, ?_⟩
    cases hwanted : wanted turn.cell.pusher host.daemon next with
    | false => exact .inr (hminds (.inr hwanted))
    | true =>
      refine .inl ?_
      unfold reconcileWatch decideWatch
      rw [hwanted]
      cases turn.cell.watch.isSome with
      | false | true => exact hlink

theorem moveWatch_speech {turn : Turn} (unsaid : Unsaid turn.cell) (was next : Link) :
    Speech turn.cell (moveWatch host (handle host depth) turn was next).cell := by
  unfold moveWatch
  split
  · exact .refl _
  · exact reconcileWatch_speech unsaid next

/-! ## Every event -/

/-- Where a `mailo watch` schedules, nobody else watches. -/
def Agreed (host : Host) : Prop := host.schedule = .watch → host.daemon = .holding

theorem unwanted_holding {pusher : Bool} {daemon : Daemon} (h : daemon = .holding) (link : Link) :
    wanted pusher daemon link = false := by
  subst h
  unfold wanted
  cases pusher <;> rfl

theorem verdict_left {schedule : Scheduling} (h : verdict schedule link event ≠ .run) :
    schedule = .watch := by
  cases schedule with
  | watch => rfl
  | window => exact absurd (by simp [verdict]) h

theorem push_minds {turn : Turn} {link : Link} (hlink : turn.cell.link = some link)
    (hcurrent : kind link = .current) (h : Settles turn.cell) (agreed : Agreed host) :
    Minds (handle host depth turn (.start .push)).cell ∧
      Speech turn.cell (handle host depth turn (.start .push)).cell := by
  have hhandled := @handle_unfold host turn (.start .push)
  generalize handle host depth turn (.start .push) = result at hhandled ⊢
  cases hhandled with
  | unknown hnone =>
    rw [hlink] at hnone
    cases hnone
  | unasked _ _ hpoll => cases hpoll
  | deferred was hwas hverdict =>
    rw [hlink, Option.some.injEq] at hwas
    have hwatch := verdict_left (by rw [hverdict]; decide)
    have hsettles : Settles turn.defer.cell := ⟨h.unsaid, h.unwatched⟩
    have hsame : Speech turn.cell turn.defer.cell := ⟨Nat.le_refl _, .inl ⟨rfl, rfl⟩⟩
    exact ⟨(reconcileWatch_minds hsettles).2 (.inr (unwanted_holding (agreed hwatch) _)),
      hsame.trans (reconcileWatch_speech hsettles.unsaid _)⟩
  | dropped was hwas hverdict =>
    have hwatch := verdict_left (by rw [hverdict]; decide)
    exact ⟨(reconcileWatch_minds h).2 (.inr (unwanted_holding (agreed hwatch) _)),
      reconcileWatch_speech h.unsaid _⟩
  | ran was hwas =>
    rw [hlink, Option.some.injEq] at hwas
    subst hwas
    cases link with
    | current finished trouble live =>
      rw [after_begin_eq _ rfl rfl]
      refine ⟨⟨move_settles hlink rfl h, fun done troubles was hfound => ?_⟩, move_speech rfl⟩
      rw [move_link, Option.some.injEq] at hfound
      cases hfound
    | syncing _ _ _ _ | fresh | waiting _ _ _ _ | needsSignIn _ _ | needsAllow _ _ | broken _ _ =>
      cases hcurrent

theorem misheard_false {next : Link} {word : Live} (h : misheard next word = false)
    (hnext : next = .current finished trouble live) : live = word := by
  subst hnext
  simpa [misheard] using h

/-- Whether a push that waited is due as `event` ends the pass. -/
def rerun (cell : Cell) (link : Link) (event : Event) : Bool :=
  match event with
  | .finished _ => link.isBusy && cell.dirty
  | _ => false

theorem moveWatch_dirty (turn : Turn) (was next : Link) :
    (moveWatch host (handle host depth) turn was next).cell.dirty = turn.cell.dirty := by
  unfold moveWatch reconcileWatch
  split
  · rfl
  · split
    · rfl
    · rw [(handle_live depth turn.stopWatch .polling).cell]
      rfl
    · rfl

theorem held_of_some {held : Option Link}
    (h : held.map (fun link => (kind link, kind link.resting)) =
      some (kind link, kind link.resting)) :
    ∃ found, held = some found ∧ kind found = kind link := by
  cases held with
  | none => cases h
  | some found => exact ⟨found, rfl, (resting_of_shape h rfl).1⟩

theorem rerun_of_owed (hended : passEnded link (turn.next host link event) = true)
    (howed : (turn.move host link event).cell.dirty = true)
    (hfinished : finishedCurrent (turn.next host link event) event = true) :
    rerun turn.cell link event = true ∧ kind (turn.next host link event) = .current := by
  unfold finishedCurrent at hfinished
  split at hfinished
  · rename_i trouble _ _ _ hnext
    have hbusy : link.isBusy = true := by
      unfold passEnded at hended
      rw [Bool.and_eq_true] at hended
      exact hended.1
    have hdirty : turn.cell.dirty = true := by
      unfold Turn.move at howed
      rw [(effects_said host.now _ _).2] at howed
      simpa [Turn.hear] using howed
    refine ⟨?_, by rw [hnext]; rfl⟩
    simp [rerun, hbusy, hdirty]
  · cases hfinished

theorem after_minds (hlink : turn.cell.link = some link) (hwordless : wordless event = true)
    (h : Settles turn.cell) (agreed : rerun turn.cell link event = true → Agreed host) :
    Minds (after host (handle host depth) (turn.move host link event) link
        (turn.next host link event) event).cell ∧
      Speech turn.cell (after host (handle host depth) (turn.move host link event) link
        (turn.next host link event) event).cell := by
  have hmoved := @move_settles host turn link event hlink hwordless h
  have hmove := @move_link host turn link event
  obtain ⟨hsettles, hheld⟩ :=
    @moveWatch_minds host (turn.move host link event) link (turn.next host link event) hmove hmoved
  have hspeech := (@move_speech host turn link event hwordless).trans
    (@moveWatch_speech host _ hmoved.unsaid link (turn.next host link event))
  have hshape := @moveWatch_link host _ (@handle_live host depth) turn link event
  have hdirty := @moveWatch_dirty host (turn.move host link event) link (turn.next host link event)
  have hfollowed := @after_followed host (handle host depth) (turn.move host link event) link
    (turn.next host link event) event
  generalize after host (handle host depth) (turn.move host link event) link
    (turn.next host link event) event = result at hfollowed ⊢
  generalize moveWatch host (handle host depth) (turn.move host link event) link
    (turn.next host link event) = moved at *
  have hsettled : Settles (moved.settled link (turn.next host link event)).cell :=
    ⟨hsettles.unsaid, hsettles.unwatched⟩
  have hsame : Speech turn.cell (moved.settled link (turn.next host link event)).cell :=
    ⟨hspeech.made, hspeech.word⟩
  cases hfollowed with
  | owed howes =>
    simp only [Turn.owes, Bool.and_eq_true] at howes
    obtain ⟨⟨hended, howed⟩, hfinished⟩ := howes
    rw [hdirty] at howed
    obtain ⟨held, hheldlink, hheldkind⟩ := held_of_some hshape
    obtain ⟨hrerun, hcurrent⟩ := rerun_of_owed hended howed hfinished
    obtain ⟨hminds, hpush⟩ := @push_minds host
      (moved.settled link (turn.next host link event)) held hheldlink (hheldkind.trans hcurrent)
      hsettled (agreed hrerun)
    exact ⟨hminds, hsame.trans hpush⟩
  | misheard _ _ =>
    exact ⟨minds_stands hsettled.unsaid (.inr rfl), hsame.trans (speech_stands rfl)⟩
  | settled _ hmisheard =>
    refine ⟨⟨hsettled, fun finished trouble live hfound => ?_⟩, hsame⟩
    rcases hheld with hnext | hminds
    · have hfound' : turn.next host link event = .current finished trouble live :=
        Option.some.inj (hnext.symm.trans hfound)
      exact misheard_false hmisheard hfound'
    · exact hminds.current finished trouble live hfound

/-- Whatever but a word is handled, the link follows the last word. -/
theorem handle_minds {turn : Turn} {event : Event} (hwordless : wordless event = true)
    (h : Minds turn.cell)
    (agreed : ∀ link, turn.cell.link = some link → rerun turn.cell link event = true →
      Agreed host) :
    Minds (handle host depth turn event).cell ∧
      Speech turn.cell (handle host depth turn event).cell := by
  have hhandled := @handle_unfold host turn event
  generalize handle host depth turn event = result at hhandled ⊢
  cases hhandled with
  | unknown | unasked => exact ⟨h, .refl _⟩
  | deferred link =>
    have hdeferred : Minds turn.defer.cell := ⟨⟨h.unsaid, h.unwatched⟩, h.current⟩
    have hsame : Speech turn.cell turn.defer.cell := ⟨Nat.le_refl _, .inl ⟨rfl, rfl⟩⟩
    exact ⟨(reconcileWatch_minds hdeferred.toSettles).2 (.inl hdeferred),
      hsame.trans (reconcileWatch_speech hdeferred.unsaid link)⟩
  | dropped link =>
    exact ⟨(reconcileWatch_minds h.toSettles).2 (.inl h), reconcileWatch_speech h.unsaid link⟩
  | ran link hlink => exact after_minds hlink hwordless h.toSettles (agreed link hlink)

/-! ## A word of a watch that no longer runs -/

/-- Whether a link that is current, or will be again, is kept up to date as `live` says. -/
def agrees (live : Live) (link : Link) : Bool :=
  match link.resting with
  | .current _ _ was => was == live
  | _ => true

def Harmless (cell : Cell) (live : Live) : Prop :=
  ∀ link, cell.link = some link →
    agrees live link = true ∧ (cell.watch.isSome = true → live = cell.lastWord) ∨
      cell.watch = none ∧ link.isBusy = false

theorem toldLive_agrees (h : agrees live link = true) (now : DateTime) (every : Duration) :
    (toldLive live now every link).1 = link := by
  induction link with
  | syncing first doing count after ih =>
    simp only [toldLive, ih h]
  | current finished trouble was =>
    have hwas : was = live := by simpa [agrees, Link.resting] using h
    simp only [toldLive, if_pos hwas]
  | fresh | waiting _ _ _ _ | needsSignIn _ _ | needsAllow _ _ | broken _ _ => rfl

/-- What is held where a word changed nothing. -/
structure Unmoved (before after : Cell) : Prop where
  link : after.link = before.link
  watch : after.watch = before.watch
  lastWord : after.lastWord = before.lastWord
  made : after.made = before.made

theorem Unmoved.minds {before after : Cell} (h : Unmoved before after) (unsaid : Unsaid after)
    (k : Minds before) : Minds after := by
  refine ⟨⟨unsaid, fun hwatch link hlink => ?_⟩, fun finished trouble live hlink => ?_⟩
  · exact k.unwatched (h.watch ▸ hwatch) link (h.link ▸ hlink)
  · rw [h.lastWord]
    exact k.current finished trouble live (h.link ▸ hlink)

theorem misheard_minds (hlink : cell.link = some link) (h : Minds cell) :
    misheard link cell.lastWord = false := by
  cases link with
  | current finished trouble live =>
    have hlive := h.current finished trouble live hlink
    simp [misheard, hlive]
  | syncing _ _ _ _ | fresh | waiting _ _ _ _ | needsSignIn _ _ | needsAllow _ _ | broken _ _ => rfl

theorem move_harmless {turn : Turn} {live : Live}
    (h : turn.cell.watch.isSome = true → live = turn.cell.lastWord) (link : Link) :
    (turn.move host link (.live live)).cell.lastWord = turn.cell.lastWord := by
  cases hwatch : turn.cell.watch.isSome with
  | true => rw [move_lastWord (.inl hwatch), h hwatch]
  | false =>
    unfold Cell.lastWord
    rw [move_said]
    simp [Turn.hear, hwatch]

theorem move_unsaid (h : Unsaid turn.cell) (link : Link) (live : Live) :
    Unsaid (turn.move host link (.live live)).cell := by
  intro hwatch
  rw [move_watch] at hwatch
  rw [move_said]
  unfold Turn.hear
  simp only [hwatch, Option.isSome_none, Bool.false_eq_true, if_false]
  exact h hwatch

theorem handle_agrees {turn : Turn} {live : Live} {link : Link} (h : Minds turn.cell)
    (hlink : turn.cell.link = some link) (hagrees : agrees live link = true)
    (hword : turn.cell.watch.isSome = true → live = turn.cell.lastWord) :
    handle host depth turn (.live live) = turn.move host link (.live live) ∧
      Unmoved turn.cell (turn.move host link (.live live)).cell := by
  have hnext : turn.next host link (.live live) = link := by
    rw [next_live, toldLive_agrees hagrees]
  have hlast := @move_harmless host turn live hword link
  have hquiet := @move_live host turn link hlink live
  refine ⟨?_, ?_, hquiet.watch, hlast, hquiet.made⟩
  · rw [handle_ran hlink (verdict_live _ _ _) (fun h => by cases h), after_live, hnext, hlast,
      misheard_minds hlink h]
    rfl
  · rw [move_link, hnext, hlink]

theorem handle_flip (h : Minds turn.cell) (hlink : turn.cell.link = some link)
    (hwatch : turn.cell.watch = none) (hidle : link.isBusy = false)
    (hdiffers : ¬agrees live link = true) :
    Minds (handle host depth turn (.live live)).cell ∧
      Unmoved turn.cell (handle host depth turn (.live live)).cell := by
  cases link with
  | current finished trouble was =>
    have hpolling := h.unsaid.lastWord hwatch
    have hwas : was = .polling := (h.current finished trouble was hlink).trans hpolling
    subst hwas
    have hlive : live ≠ .polling := fun hsame => hdiffers (by subst hsame; rfl)
    have hlast : (turn.move host (.current finished trouble .polling)
        (.live live)).cell.lastWord = .polling := by
      rw [move_harmless (fun hsome => by rw [hwatch] at hsome; cases hsome), hpolling]
    have hnext : turn.next host (.current finished trouble .polling) (.live live) =
        .current finished trouble live := by
      rw [next_live]
      simp [toldLive, hlive.symm]
    have hmove := @move_link host turn (.current finished trouble .polling) (.live live)
    rw [hnext] at hmove
    have hagain : handle host depth turn (.live live) = handle host depth
        (turn.move host (.current finished trouble .polling) (.live live)) (.live .polling) := by
      rw [handle_ran hlink (verdict_live _ _ _) (fun h => by cases h), after_live, hnext, hlast]
      simp [misheard, hlive]
    have hquiet := @handle_live host depth turn live
    have hminds := @minds_stands host
      (turn.move host (.current finished trouble .polling) (.live live)) .polling
      (move_unsaid h.unsaid _ live) (.inr hlast)
    rw [← hagain] at hminds
    refine ⟨hminds, ?_, hquiet.watch, ?_, hquiet.made⟩
    · rw [hagain, show handle host depth _ (.live .polling) = _ from
        handle_stands 3 hmove (.inr hlast), move_link, next_live, hlink]
      simp [toldLive, hlive]
    · rw [hminds.unsaid.lastWord (hquiet.watch.trans hwatch), hpolling]
  | syncing first doing count after => cases hidle
  | fresh | waiting _ _ _ _ | needsSignIn _ _ | needsAllow _ _ | broken _ _ =>
    exact absurd rfl hdiffers

/-- Such a word changes neither the link nor what was said last. -/
theorem handle_harmless {turn : Turn} {live : Live} (h : Minds turn.cell)
    (harmless : Harmless turn.cell live) :
    Minds (handle host depth turn (.live live)).cell ∧
      Unmoved turn.cell (handle host depth turn (.live live)).cell := by
  cases hlink : turn.cell.link with
  | none =>
    rw [handle_unknown depth hlink]
    exact ⟨h, rfl, rfl, rfl, rfl⟩
  | some link =>
    by_cases hagrees : agrees live link = true ∧
        (turn.cell.watch.isSome = true → live = turn.cell.lastWord)
    · obtain ⟨hhandled, hunmoved⟩ := @handle_agrees host turn live link h hlink hagrees.1 hagrees.2
      rw [hhandled]
      exact ⟨hunmoved.minds (move_unsaid h.unsaid link live) h, hunmoved⟩
    · rcases harmless link hlink with hagree | ⟨hwatch, hidle⟩
      · exact absurd hagree hagrees
      · have hword : turn.cell.watch.isSome = true → live = turn.cell.lastWord := by
          intro hsome
          rw [hwatch] at hsome
          cases hsome
        exact handle_flip h hlink hwatch hidle fun hagree => hagrees ⟨hagree, hword⟩

end Mailo.Engine.Schedule
