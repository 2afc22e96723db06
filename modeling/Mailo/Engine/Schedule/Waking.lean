import Mailo.Engine.Schedule.Turns
import Mailo.Engine.Schedule.World

/-!
# A link at rest has a wake

A link that will try again is woken by one timer, which every later timer replaces. Handling an
event leaves it with that wake or with a newer one, but for two: a tick that comes before the link
agrees it is due, and a cancel that returns to a rest whose wake was already spent.
-/

namespace Mailo.Engine.Schedule

open Domain Logic Library

variable {host : Host}

/-- A state that tries again without being asked. -/
def tries : LinkKind → Bool
  | .current | .waiting => true
  | _ => false

/-- Whether a tick is let through to a link that is not due yet. -/
def early (host : Host) (cell : Cell) (link : Link) (event : Event) : Bool :=
  event == .tick && verdict host.schedule link .tick == .run &&
    match link with
    | .current finished _ live => host.now < later finished (between live cell.interval)
    | .waiting due _ _ _ => host.now < due
    | _ => false

/-! ## One event -/

variable {event : Event} {turn : Turn} {account : AccountId} {world : World} {rest : List Letter}

theorem begin_step {link : Link} {cell : Cell} (rests : tries (kind link) = true)
    (wake : isWake event = true) (hverdict : verdict host.schedule link event = .run)
    (due : early host cell link event = false) :
    step link event host.now cell.interval = Logic.begin link := by
  unfold isWake at wake
  split at wake
  · unfold early at due
    rw [hverdict] at due
    cases link with
    | current finished trouble live =>
      have hdue : later finished (between live cell.interval) ≤ host.now := by
        simpa using due
      simp only [step, if_pos hdue]
    | waiting due' why failures first =>
      have hdue : due' ≤ host.now := by simpa using due
      simp only [step, if_pos hdue]
    | fresh | syncing _ _ _ _ | needsSignIn _ _ | needsAllow _ _ | broken _ _ => cases rests
  · cases link with
    | current | waiting => rfl
    | fresh | syncing _ _ _ _ | needsSignIn _ _ | needsAllow _ _ | broken _ _ => cases rests
  · cases wake

theorem verdict_wake {schedule : Scheduling} {link : Link} (wake : isWake event = true) :
    verdict schedule link event ≠ .drop := by
  unfold isWake at wake
  unfold verdict
  split at wake
  · split <;> simp
  · split <;> simp
  · cases wake

def Answered (turn : Turn) : Prop :=
  (∃ link, turn.cell.link = some link ∧ link.isBusy = true) ∨ Armed turn

theorem after_begin (again : Turn → Event → Turn) {link : Link} (hidle : link.isBusy = false)
    (hstep : step link event host.now turn.cell.interval = Logic.begin link) :
    (after host again (turn.move host link event) link (turn.next host link event)
      event).cell.link = some (Logic.begin link).1 := by
  rw [after_begin_eq again hidle hstep, move_link]
  unfold Turn.next
  rw [hstep]

theorem idle_of_tries {link : Link} (h : tries (kind link) = true) : link.isBusy = false := by
  cases link with
  | syncing first doing count after => cases h
  | fresh | current _ _ _ | waiting _ _ _ _ | needsSignIn _ _ | needsAllow _ _ | broken _ _ => rfl

theorem handle_wake (fuel : Nat) {link : Link} (hlink : turn.cell.link = some link)
    (rests : tries (kind link) = true) (timed : turn.cell.interval ≠ manually)
    (wake : isWake event = true) (due : early host turn.cell link event = false) :
    Answered (handle host (fuel + 1) turn event) := by
  have hhandled := @handle_handled host fuel turn event
  generalize handle host (fuel + 1) turn event = result at hhandled ⊢
  cases hhandled with
  | unknown h =>
    rw [hlink] at h
    cases h
  | unasked _ _ _ h => exact absurd h timed
  | deferred was =>
    exact .inr ((reconcileWatch_grows (@handle_grows host fuel) turn.defer was).armed
      (armed_arm turn _ rfl))
  | dropped was h hverdict => exact absurd hverdict (verdict_wake wake)
  | ran was h hverdict =>
    rw [hlink, Option.some.injEq] at h
    subst h
    exact .inl ⟨_, after_begin _ (idle_of_tries rests) (begin_step rests wake hverdict due), rfl⟩

theorem handle_adopted (fuel : Nat) {last : Option DateTime} {mail : Bool}
    (hlink : turn.cell.link = some (linkFor last mail host.now))
    (timed : turn.cell.interval ≠ manually) :
    Answered (handle host (fuel + 1) turn (.start .poll)) := by
  by_cases hfresh : linkFor last mail host.now = .fresh
  · rw [hfresh] at hlink
    have hhandled := @handle_handled host fuel turn (.start .poll)
    generalize handle host (fuel + 1) turn (.start .poll) = result at hhandled ⊢
    have hrun : verdict host.schedule .fresh (.start .poll) = .run := by simp [verdict]
    cases hhandled with
    | unknown h =>
      rw [hlink] at h
      cases h
    | unasked _ _ _ h => exact absurd h timed
    | deferred was h hverdict | dropped was h hverdict =>
      rw [hlink, Option.some.injEq] at h
      subst h
      rw [hrun] at hverdict
      cases hverdict
    | ran was h =>
      rw [hlink, Option.some.injEq] at h
      subst h
      exact .inl ⟨_, after_begin _ rfl rfl, rfl⟩
  · refine handle_wake fuel hlink ?_ timed rfl rfl
    unfold linkFor at hfresh ⊢
    split
    · exact absurd rfl hfresh
    · rfl

/-! ## Coming to rest -/

/-- A cancel that returns to a link which will try again. -/
def returns (link : Link) (event : Event) : Bool :=
  event == .cancel && link.isBusy && tries (kind link.resting)

theorem tries_resting {link : Link} (h : tries (kind link) = true) : link.resting = link := by
  cases link with
  | syncing first doing count after => cases h
  | fresh | current _ _ _ | waiting _ _ _ _ | needsSignIn _ _ | needsAllow _ _ | broken _ _ => rfl

/-- A link comes to rest with a wake, but where it was at rest before or a cancel returns to it. -/
theorem step_tries {link : Link} {now : DateTime} {every : Duration}
    (h : tries (kind (step link event now every).1) = true) :
    tries (kind link) = true ∨ returns link event = true ∨
      ∃ due, (step link event now every).2 = [.wakeAt due] := by
  unfold step at h ⊢
  split at h
  · rename_i first doing count after
    unfold running at h ⊢
    split at h
    · exact .inl h
    · exact .inr (.inr ⟨_, rfl⟩)
    · rename_i retry why pause
      cases retry with
      | now | after named => exact .inr (.inr ⟨_, rfl⟩)
      | needsReauth | needsGrant | fatal text => cases h
    · refine .inr (.inl ?_)
      have hrest : (Link.syncing first doing count after).resting = after := tries_resting h
      simpa [returns, Link.isBusy, hrest] using h
    · rw [toldLive_kind] at h
      exact .inl h
    · exact .inl h
    · exact .inl h
    · exact .inl h
  · cases h
  · cases h
  · cases h
  · cases h
  · exact .inl rfl
  · exact .inl rfl
  · cases h
  · cases h
  · exact .inl rfl
  · exact .inl h

/-- A step that ran leaves the link a new wake, or one of the kind it was at rest before. -/
theorem after_rests {fuel : Nat}
    (ih : ∀ {turn : Turn} {event : Event}, (∀ link, turn.cell.link = some link →
      returns link event = false) → ∀ {link : Link},
        (handle host fuel turn event).cell.link = some link → tries (kind link) = true →
          Armed (handle host fuel turn event) ∨
            ∃ was, turn.cell.link = some was ∧ tries (kind was) = true) {was next link : Link}
    (hnext : tries (kind next) = false)
    (hshape : (moveWatch host (handle host fuel) turn was next).cell.link.map
      (fun link => (kind link, kind link.resting)) = some (kind next, kind next.resting))
    (hlink : (after host (handle host fuel) turn was next event).cell.link = some link)
    (rests : tries (kind link) = true) :
    Armed (after host (handle host fuel) turn was next event) := by
  have hfollowed := @after_followed host (handle host fuel) turn was next event
  generalize moveWatch host (handle host fuel) turn was next = moved at hshape hfollowed
  generalize after host (handle host fuel) turn was next event = result at hfollowed hlink ⊢
  have hmoved : ∀ found, (moved.settled was next).cell.link = some found →
      tries (kind found) = false := by
    intro found hfound
    rw [(resting_of_shape hshape hfound).1]
    exact hnext
  have hagain {event' : Event} (h : event' ≠ .cancel)
      (hlink' : (handle host fuel (moved.settled was next) event').cell.link = some link) :
      Armed (handle host fuel (moved.settled was next) event') := by
    have hstays : ∀ found, (moved.settled was next).cell.link = some found →
        returns found event' = false := by
      intro found _
      simp [returns, h]
    rcases ih hstays hlink' rests with harmed | ⟨found, hfound, htries⟩
    · exact harmed
    · rw [hmoved found hfound] at htries
      cases htries
  cases hfollowed with
  | owed | misheard => exact hagain (by simp) hlink
  | settled =>
    rw [hmoved link hlink] at rests
    cases rests

theorem handle_rests (fuel : Nat)
    (stays : ∀ link, turn.cell.link = some link → returns link event = false) {link : Link}
    (hlink : (handle host fuel turn event).cell.link = some link) (rests : tries
    (kind link) = true) :
    Armed (handle host fuel turn event) ∨
      ∃ was, turn.cell.link = some was ∧ tries (kind was) = true := by
  induction fuel generalizing turn event link with
  | zero => exact .inr ⟨link, hlink, rests⟩
  | succ fuel ih =>
    have hhandled := @handle_handled host fuel turn event
    generalize handle host (fuel + 1) turn event = result at hhandled hlink ⊢
    cases hhandled with
    | unknown | unasked => exact .inr ⟨link, hlink, rests⟩
    | deferred was =>
      exact .inl ((reconcileWatch_grows (@handle_grows host fuel) turn.defer was).armed
        (armed_arm turn _ rfl))
    | dropped was =>
      obtain ⟨found, hfound, hsame, _⟩ :=
        held_of_shape (reconcileWatch_link (@handle_live host fuel) turn was) hlink
      exact .inr ⟨found, hfound, by rw [hsame]; exact rests⟩
    | ran was hwas =>
      by_cases hnext : tries (kind (turn.next host was event)) = true
      · rcases step_tries hnext with htries | hreturns | ⟨due, hwake⟩
        · exact .inr ⟨was, hwas, htries⟩
        · rw [stays was hwas] at hreturns
          cases hreturns
        · refine .inl ((after_grows (@handle_grows host fuel) _ was _ event).armed ?_)
          unfold Turn.move
          rw [hwake]
          exact armed_arm _ _ rfl
      · exact .inl (after_rests ih (Bool.eq_false_iff.mpr hnext)
          (moveWatch_link (@handle_live host fuel) turn was event) hlink rests)

/-- A wake of the account is still to come: its timer runs and counts, its word waits to be handled,
or the account's first fetch waits one beat. -/
def Coming (world : World) (account : AccountId) (event : Event) : Prop :=
  (∃ generation wait, .timer generation wait event ∈ world.flight account ∧
    (world.cells account).wakes = some generation) ∨
  ⟨.event account event, .timer⟩ ∈ world.inbox ∨
  account ∈ world.beat ∧ event = .start .poll

def Pending (world : World) (account : AccountId) : Prop :=
  ∃ event, isWake event = true ∧ Coming world account event

/-- The world without the letter that is handled next. -/
def World.opened (world : World) : World := { world with inbox := world.inbox.tail }

def Attended (world : World) : Prop :=
  ∀ account link, (world.cells account).link = some link → tries (kind link) = true →
    (world.cells account).interval ≠ manually → Pending world account

/-- No wake is spent on a link that stays at rest without another to come: not by a tick before the
link is due, not by a cancel after the pass's own wake was spent, and not by a timed interval given to
an account that was checked by hand alone. -/
def Attentive (world : World) : Act → Prop
  | .deliver host =>
    match world.inbox with
    | ⟨.event account event, _⟩ :: _ =>
      ∀ link, (world.cells account).link = some link →
        (world.cells account).interval ≠ manually →
          (early host (world.cells account) link event || returns link event) = true →
            Pending world.opened account
    | ⟨.accounts listed, _⟩ :: _ =>
      ∀ account link, (world.cells account).link = some link → tries (kind link) = true →
        (world.cells account).interval = manually →
          (listed account).every.isSome = true → (listed account).every ≠ some manually →
            Pending world.opened account
    | [] => True
  | _ => True

theorem pending_of_armed (hcell : world.cells account = turn.cell)
    (hflight : ∀ task ∈ turn.fresh, task ∈ world.flight account) (h : Armed turn) :
    Pending world account := by
  obtain ⟨generation, wait, event, hwakes, hwake, htimer⟩ := h
  exact ⟨event, hwake, .inl ⟨generation, wait, hflight _ htimer, by rw [hcell]; exact hwakes⟩⟩

/-- An account that the accounts' change leaves at rest has a new wake, or was at rest before, and
keeps its wake. -/
theorem follow_rests {listed : Listed} {cell : Cell} {link : Link}
    (hlink : (follow host listed cell).cell.link = some link) (rests : tries (kind link) = true)
    (timed : (follow host listed cell).cell.interval ≠ manually) :
    Armed (follow host listed cell) ∨
      ∃ was every, cell.link = some was ∧ listed.every = some every ∧ every ≠ manually ∧
        tries (kind was) = true ∧ (follow host listed cell).cell.wakes = cell.wakes := by
  have hgrows := @follow_grows host listed cell
  obtain ⟨was, hwas, hsame⟩ := follow_held hlink
  have htimed : (adopt host listed cell).cell.interval ≠ manually := by
    unfold Cell.interval at timed ⊢
    rw [← hgrows.every]
    exact timed
  rw [← hsame] at rests
  cases hbefore : cell.link with
  | none =>
    cases hevery : listed.every with
    | none => simp [adopt, hbefore, hevery] at hwas
    | some every =>
      refine .inl (hgrows.armed ?_)
      simp only [adopt, hbefore, hevery] at hwas htimed ⊢
      rw [Cell.interval, (handle_grows depth _ _).every] at htimed
      rcases handle_adopted 3 rfl htimed with ⟨busy, hbusy, hisBusy⟩ | harmed
      · rw [show depth = 3 + 1 from rfl, hbusy, Option.some.injEq] at hwas
        subst hwas
        rw [idle_of_tries rests] at hisBusy
        cases hisBusy
      · exact harmed
  | some before =>
    cases hevery : listed.every with
    | none => simp [adopt, hbefore, hevery, gone] at hwas
    | some every =>
      simp only [adopt, hbefore, hevery] at hwas htimed hgrows
      rcases hgrows.woken with hwakes | harmed
      · rw [Option.some.injEq] at hwas
        subst hwas
        exact .inr ⟨before, every, rfl, rfl, htimed, rests, hwakes⟩
      · exact .inl harmed

/-! ## Runs -/

theorem coming_send (sender : Sender) (notes : List Note) (h : Coming world account event) :
    Coming (world.send sender notes) account event := by
  rcases h with htimer | hletter | hbeat
  · exact .inl htimer
  · exact .inr (.inl (List.mem_append_left _ hletter))
  · exact .inr (.inr hbeat)

theorem coming_drop {of : AccountId} {task : Task}
    (other : ∀ generation wait, account = of → (world.cells account).wakes = some generation →
      task ≠ .timer generation wait event) (h : Coming world account event) :
    Coming (world.drop of task) account event := by
  rcases h with ⟨generation, wait, htimer, hwakes⟩ | hrest
  · refine .inl ⟨generation, wait, ?_, hwakes⟩
    unfold World.drop
    dsimp only
    by_cases hof : account = of
    · subst hof
      rw [Function.update_self]
      exact (List.mem_erase_of_ne (other generation wait rfl hwakes).symm).mpr htimer
    · rw [Function.update_of_ne hof]
      exact htimer
  · exact .inr hrest

variable {act : Act} {sender : Sender}

theorem coming_act (other : ∀ host, act ≠ .deliver host) (h : Coming world account event) :
    Coming (world.act act) account event := by
  cases act with
  | deliver host => exact absurd rfl (other host)
  | post note => exact coming_send .person [note] h
  | beat =>
    rcases h with htimer | hletter | ⟨hbeat, hevent⟩
    · exact .inl htimer
    · exact .inr (.inl (List.mem_append_left _ hletter))
    · refine .inr (.inl (List.mem_append_right _ ?_))
      subst hevent
      simpa using hbeat
  | fire of generation wait fired =>
    dsimp only [World.act]
    split
    · rename_i hrunning
      by_cases hfires : account = of ∧ fired = event ∧
          (world.cells account).wakes = some generation
      · obtain ⟨rfl, rfl, hwakes⟩ := hfires
        rw [if_pos hwakes]
        exact .inr (.inl (List.mem_append_right _ (List.mem_singleton.mpr rfl)))
      · have hdropped : Coming (world.drop of (.timer generation wait fired)) account event := by
          refine coming_drop (fun current length hof hwakes hsame => hfires ?_) h
          injection hsame with hgeneration _ hevent
          exact ⟨hof, hevent, by rw [hwakes, hgeneration]⟩
        split
        · exact coming_send _ _ hdropped
        · exact hdropped
    · exact h
  | speaks of id generation doing count =>
    dsimp only [World.act]
    split
    · exact coming_send _ _ h
    · exact h
  | ends of id generation ending =>
    dsimp only [World.act]
    split
    · split
      · exact coming_send _ _ (coming_drop (by simp) h)
      · exact coming_drop (by simp) h
    · exact h
  | hears | loses =>
    dsimp only [World.act]
    split
    · exact coming_send _ _ h
    · exact h
  | quits of id => exact coming_drop (by simp) h

/-- What is to come besides the letter that is handled is still to come, or a newer wake is. -/
theorem pending_delivered {world after : World} {letter : Letter} {rest : List Letter}
    (hinbox : world.inbox = letter :: rest) (h : World.Delivered world host letter rest after)
    {account : AccountId} (wakes : (world.turnOf host account letter.note).cell.wakes =
      (world.cells account).wakes ∨ Armed (world.turnOf host account letter.note))
    (hpending : Pending world.opened account) : Pending after account := by
  rcases wakes with hsame | harmed
  · obtain ⟨event, hwake, hcoming⟩ := hpending
    refine ⟨event, hwake, ?_⟩
    rcases hcoming with ⟨generation, wait, htimer, hwakes⟩ | hletter | hbegin
    · refine .inl ⟨generation, wait, ?_, ?_⟩
      · rw [h.flight]
        exact List.mem_append_left _ htimer
      · rw [h.cells, hsame]
        exact hwakes
    · refine .inr (.inl ?_)
      rw [World.opened, hinbox] at hletter
      rw [h.inbox]
      exact hletter
    · refine .inr (.inr ?_)
      rw [h.beat]
      exact hbegin
  · refine pending_of_armed (h.cells account) (fun task htask => ?_) harmed
    rw [h.flight]
    exact List.mem_append_right _ htask

theorem opened_of_coming {letter : Letter} (hinbox : world.inbox = letter :: rest)
    (wake : isWake event = true) (h : Coming world account event) :
    Pending world.opened account ∨ letter = ⟨.event account event, .timer⟩ := by
  rcases h with htimer | hletter | hbeat
  · exact .inl ⟨event, wake, .inl htimer⟩
  · rw [hinbox] at hletter
    rcases List.mem_cons.mp hletter with hhead | hlater
    · exact .inr hhead.symm
    · refine .inl ⟨event, wake, .inr (.inl ?_)⟩
      rw [World.opened, hinbox]
      exact hlater
  · exact .inl ⟨event, wake, .inr (.inr hbeat)⟩

theorem attended_event {after : World}
    (hinbox : world.inbox = ⟨.event account event, sender⟩ :: rest)
    (h : World.Delivered world host ⟨.event account event, sender⟩ rest after)
    (attended : Attended world) (attentive : Attentive world (.deliver host)) {link : Link}
    (hlink : (after.cells account).link = some link) (rests : tries (kind link) = true)
    (timed : (after.cells account).interval ≠ manually) : Pending after account := by
  have hturn : world.turnOf host account (.event account event) =
      handle host depth ⟨world.cells account, []⟩ event := if_pos rfl
  have hgrows := @handle_grows host depth ⟨world.cells account, []⟩ event
  have hlater := @pending_delivered host world after _ rest hinbox h account (by
    rw [hturn]; exact hgrows.woken)
  rw [h.cells, hturn] at hlink timed
  have htimed : (world.cells account).interval ≠ manually := by
    unfold Cell.interval at timed ⊢
    rw [hgrows.every] at timed
    exact timed
  simp only [Attentive, hinbox] at attentive
  by_cases hspent : ∃ was, (world.cells account).link = some was ∧
      (early host (world.cells account) was event || returns was event) = true
  · obtain ⟨was, hwas, hspent⟩ := hspent
    exact hlater (attentive was hwas htimed hspent)
  · have hunspent : ∀ was, (world.cells account).link = some was →
        early host (world.cells account) was event = false ∧ returns was event = false := by
      intro was hwas
      rw [← Bool.or_eq_false_iff, Bool.eq_false_iff]
      exact fun hearly => hspent ⟨was, hwas, hearly⟩
    have harmed (harmed : Armed (handle host depth ⟨world.cells account, []⟩ event)) :
        Pending after account := by
      refine pending_of_armed (h.cells account) (fun task htask => ?_) (by rw [hturn]; exact harmed)
      rw [h.flight]
      exact List.mem_append_right _ htask
    rcases handle_rests depth (fun was hwas => (hunspent was hwas).2) hlink rests with
      hset | ⟨was, hwas, htries⟩
    · exact harmed hset
    · obtain ⟨wake, hwake, hcoming⟩ := attended account was hwas htries htimed
      rcases opened_of_coming hinbox hwake hcoming with hopened | hhead
      · exact hlater hopened
      · -- the wake that was to come is the event that is handled
        injection hhead with hnote _
        injection hnote with _ hevent
        subst hevent
        rcases handle_wake 3 hwas htries htimed hwake (hunspent was hwas).1 with
          ⟨busy, hbusy, hisBusy⟩ | hset
        · rw [show 3 + 1 = depth from rfl, hlink, Option.some.injEq] at hbusy
          subst hbusy
          rw [idle_of_tries rests] at hisBusy
          cases hisBusy
        · exact harmed hset

theorem attended_accounts {after : World} {listed : AccountId → Listed}
    (hinbox : world.inbox = ⟨.accounts listed, sender⟩ :: rest)
    (h : World.Delivered world host ⟨.accounts listed, sender⟩ rest after)
    (attended : Attended world) (attentive : Attentive world (.deliver host)) {link : Link}
    (hlink : (after.cells account).link = some link) (rests : tries (kind link) = true)
    (timed : (after.cells account).interval ≠ manually) :
    Pending after account := by
  rw [h.cells] at hlink timed
  simp only [Attentive, hinbox] at attentive
  rcases follow_rests hlink rests timed with harmed | ⟨was, every, hwas, hevery, htimed, htries, hwakes⟩
  · refine pending_of_armed (h.cells account) (fun task htask => ?_) harmed
    rw [h.flight]
    exact List.mem_append_right _ htask
  · refine @pending_delivered host world after _ rest hinbox h account (.inl hwakes) ?_
    by_cases hmanual : (world.cells account).interval = manually
    · refine attentive account was hwas htries hmanual (by rw [hevery]; rfl) ?_
      rw [hevery]
      simpa using htimed
    · obtain ⟨wake, hwake, hcoming⟩ := attended account was hwas htries hmanual
      rcases opened_of_coming hinbox hwake hcoming with hopened | hhead
      · exact hopened
      · cases hhead

theorem attended_act (h : Attended world) (attentive : Attentive world act) :
    Attended (world.act act) := by
  intro account link hlink rests timed
  rcases world.act_cases act with ⟨hsame, _⟩ | hother | ⟨host, letter, rest, rfl, hinbox, hdelivered⟩
  · rw [hsame] at hlink timed ⊢
    exact h account link hlink rests timed
  · rw [(World.act_framed hother).cells] at hlink timed
    obtain ⟨event, hwake, hcoming⟩ := h account link hlink rests timed
    exact ⟨event, hwake, coming_act hother hcoming⟩
  · obtain ⟨note, sender⟩ := letter
    cases note with
    | event of event =>
      by_cases hof : account = of
      · subst hof
        exact attended_event hinbox hdelivered h attentive hlink rests timed
      · have hturn : world.turnOf host account (.event of event) = ⟨world.cells account, []⟩ :=
          if_neg hof
        rw [hdelivered.cells, hturn] at hlink timed
        obtain ⟨wake, hwake, hcoming⟩ := h account link hlink rests timed
        refine @pending_delivered host world _ _ rest hinbox hdelivered account
          (.inl (by rw [hturn])) ?_
        rcases opened_of_coming hinbox hwake hcoming with hopened | hhead
        · exact hopened
        · injection hhead with hnote _
          injection hnote with hsame _
          exact absurd hsame.symm hof
    | accounts listed => exact attended_accounts hinbox hdelivered h attentive hlink rests timed

/-- An account that is polled, and which has never been fetched. -/
def polled : Listed := ⟨some fallback, false, none, false⟩

/-- The host `n` seconds after the first, with nobody else to schedule. -/
def hostAt (n : Int) : Host := ⟨seconds n, .window, .absent⟩

def firstFetch (ending : Ending) : List Act :=
  [.beat, .deliver (hostAt 1), .ends ⟨1⟩ 0 1 ending, .deliver (hostAt 1)]

def fetched (ending : Ending) : World :=
  (firstFetch ending).foldl World.act (World.start [⟨1⟩] (fun _ => polled) 0)

/-- A server that asks to be left alone for two days, and the one timer that is set, which sleeps for
one. -/
def twoDays : List Act :=
  firstFetch (.failed (.after (seconds (48 * 3600))) "" .throttled) ++
    [.fire ⟨1⟩ 1 (far + slack) .tick, .deliver (hostAt (24 * 3600 + 2))]

theorem attentive_of_all
    (h : ((world.cells account).link.all fun link =>
      !(early host (world.cells account) link event || returns link event)) = true) (link : Link)
    (hlink : (world.cells account).link = some link) (_ : (world.cells account).interval ≠ manually)
    (hspent : (early host (world.cells account) link event || returns link event) = true) :
    Pending world.opened account := by
  rw [hlink, Option.all_some, hspent] at h
  cases h

end Mailo.Engine.Schedule
