import Mailo.Engine.Schedule.Turns
import Mailo.Engine.Schedule.World

/-!
# A stopped account is left alone

An account whose link rests in a state only a person can clear has no watch, and nothing but a
person starts a pass or a watch for it. The watch's own rule forgets one of those states: a grant
that is gone.
-/

namespace Mailo.Engine.Schedule

open Domain Logic Library

def needsPerson : LinkKind → Bool
  | .needsSignIn | .needsAllow | .broken => true
  | _ => false

/-- Whether a note makes the scheduler see to the watch of an account whose grant is gone: the pass
that found it gone is over, or a wake was left to who else schedules. -/
def asksWatch (schedule : Scheduling) (cell : Cell) (link : Link) (event : Event) : Bool :=
  match event with
  | .failed .needsGrant _ _ => link.isBusy && kind link.resting != .needsAllow
  | event =>
    kind link.resting == .needsAllow && verdict schedule link event != .run &&
      !(event == .start .poll && cell.interval == manually)

/-- A watch of the account could be held: the server can push, and nobody else holds it. -/
def Pushed (pusher : Bool) (daemon : Daemon) : Prop := pusher = true ∧ daemon = .absent

/-- No watch runs while only a person can clear what the link rests in. -/
def Spared (cell : Cell) : Prop :=
  ∀ link, cell.link = some link → needsPerson (kind link.resting) = true → cell.watch = none

def foundGone (event : Event) : Bool :=
  match event with
  | .failed .needsGrant _ _ => true
  | _ => false

variable {event : Event} {link : Link} {now : DateTime} {cell : Cell} {world : World}

/-- A link comes to rest at a grant that is gone only from there, or from a pass that found it so. -/
theorem step_needsAllow {every : Duration}
    (h : kind (step link event now every).1.resting = .needsAllow) :
    kind link.resting = .needsAllow ∨ link.isBusy = true ∧ foundGone event = true := by
  unfold step at h
  split at h
  · rename_i first doing count after
    unfold running at h
    split at h
    · exact .inl h
    · cases h
    · rename_i retry why pause
      cases retry with
      | needsGrant => exact .inr ⟨rfl, rfl⟩
      | now | after named | needsReauth | fatal text => cases h
    · exact .inl h
    · rw [toldLive_resting] at h
      exact .inl h
    · exact .inl h
    · exact .inl h
    · exact .inl h
  · exact .inl h
  · exact .inl h
  · exact .inl h
  · exact .inl h
  · split at h
    · exact .inl h
    · exact .inl h
  · split at h
    · exact .inl h
    · exact .inl h
  · exact .inl h
  · exact .inl h
  · rw [toldLive_resting] at h
    exact .inl h
  · exact .inl h

theorem step_needsPerson (person : needsPerson (kind link) = true) (signedIn : event ≠ .signedIn)
    (byHand : event ≠ .start .manual) (now : DateTime) (every : Duration) :
    step link event now every = (link, []) := by
  cases link with
  | fresh | syncing _ _ _ _ | current _ _ _ | waiting _ _ _ _ => cases person
  | needsSignIn | needsAllow =>
    cases event with
    | signedIn => exact absurd rfl signedIn
    | _ => rfl
  | broken why first =>
    cases event with
    | start trigger =>
      cases trigger with
      | manual => exact absurd rfl byHand
      | poll | push | folderOpen => rfl
    | _ => rfl

theorem refused_eq (link : Link) :
    refused link = (kind link == .needsSignIn || kind link == .broken) := by
  cases link <;> rfl

theorem wanted_stopped {pusher : Bool} {daemon : Daemon}
    (person : needsPerson (kind link.resting) = true)
    (grant : kind link.resting = .needsAllow → ¬Pushed pusher daemon) :
    wanted pusher daemon link = false := by
  unfold wanted
  rw [refused_eq]
  cases hkind : kind link.resting with
  | needsAllow =>
    have hnone := grant hkind
    cases pusher with
    | false => rfl
    | true =>
      cases daemon with
      | holding => rfl
      | absent => exact absurd ⟨rfl, rfl⟩ hnone
  | needsSignIn | broken => simp
  | fresh | syncing | current | waiting =>
    rw [hkind] at person
    cases person

variable {host : Host}

section Again

variable {again : Turn → Event → Turn}
  (quiet : ∀ turn live, Quiet turn (again turn (.live live)))

include quiet

theorem reconcileWatch_watch (turn : Turn) (link : Link) :
    (reconcileWatch host again turn link).cell.watch.isSome =
      wanted turn.cell.pusher host.daemon link := by
  unfold reconcileWatch decideWatch
  cases hwatch : turn.cell.watch with
  | none =>
    cases hwanted : wanted turn.cell.pusher host.daemon link with
    | false => simp [hwatch]
    | true => rfl
  | some id =>
    cases hwanted : wanted turn.cell.pusher host.daemon link with
    | false =>
      have hstop := (quiet turn.stopWatch .polling).watch
      simp only [Option.isSome_some, hstop]
      rfl
    | true => simp [hwatch]

end Again

/-! ## No watch at a stop -/

/-- No watch runs at a stop, and who can be pushed to is as it was. -/
structure Kept (pushes : Bool) (cell : Cell) : Prop where
  pusher : cell.pusher = pushes
  spared : Spared cell

variable {after before : Turn} {last : Option DateTime} {mail : Bool} {listed : Listed} {act : Act}
  {account : AccountId}

theorem Quiet.kept (h : Quiet before after) {pushes : Bool} (k : Kept pushes before.cell) :
    Kept pushes after.cell := by
  refine ⟨h.pusher.trans k.pusher, fun link hlink hperson => ?_⟩
  obtain ⟨was, hwas, _, hsame⟩ := held_of_shape h.link hlink
  rw [h.watch]
  exact k.spared was hwas (by rw [hsame]; exact hperson)

section Again

variable {again : Turn → Event → Turn}
  (quiet : ∀ turn live, Quiet turn (again turn (.live live)))

include quiet

theorem reconcileWatch_pusher (turn : Turn) (link : Link) :
    (reconcileWatch host again turn link).cell.pusher = turn.cell.pusher := by
  unfold reconcileWatch
  split
  · rfl
  · exact (quiet turn.stopWatch .polling).pusher
  · rfl

theorem reconcileWatch_kept {turn : Turn} {link : Link} (hlink : turn.cell.link = some link)
    (grant : kind link.resting = .needsAllow → ¬Pushed turn.cell.pusher host.daemon) :
    Kept turn.cell.pusher (reconcileWatch host again turn link).cell := by
  refine ⟨reconcileWatch_pusher quiet turn link, fun found hfound hperson => ?_⟩
  have hshape := @reconcileWatch_link host again quiet turn link
  rw [hlink] at hshape
  rw [(resting_of_shape hshape hfound).2] at hperson
  have hwatch := @reconcileWatch_watch host again quiet turn link
  rw [wanted_stopped hperson grant] at hwatch
  exact Option.isNone_iff_eq_none.mp (Option.isSome_eq_false_iff.mp hwatch)

theorem moveWatch_kept {turn : Turn} {link : Link} {event : Event}
    (hlink : turn.cell.link = some link) (spared : Spared turn.cell)
    (grant : link.isBusy = true → kind link.resting ≠ .needsAllow → foundGone event = true →
      ¬Pushed turn.cell.pusher host.daemon) :
    Kept turn.cell.pusher
      (moveWatch host again (turn.move host link event) link (turn.next host link event)).cell := by
  have hmove := @move_link host turn link event
  unfold moveWatch
  split
  · rename_i hsame
    refine ⟨move_pusher turn link event, fun found hfound hperson => ?_⟩
    rw [hmove, Option.some.injEq] at hfound
    rw [move_watch]
    apply spared link hlink
    rw [hsame, hfound]
    exact hperson
  · rename_i hmoved
    rw [← @move_pusher host turn link event]
    apply reconcileWatch_kept quiet hmove
    intro hallow
    have hwas : kind link.resting ≠ .needsAllow := fun hwas => hmoved (hwas.trans hallow.symm)
    rw [move_pusher]
    rcases step_needsAllow hallow with hbefore | ⟨hbusy, hgone⟩
    · exact absurd hbefore hwas
    · exact grant hbusy hwas hgone

end Again

theorem asksWatch_push {was : Link} (h : finishedCurrent was event = true)
    (same : kind link.resting = kind was.resting) (schedule : Scheduling) (cell : Cell) :
    asksWatch schedule cell link (.start .push) = false := by
  unfold finishedCurrent at h
  split at h
  · have hcurrent : kind link.resting = .current := same
    simp [asksWatch, hcurrent]
  · cases h

theorem asksWatch_of_found (busy : link.isBusy = true) (hallow : kind link.resting ≠ .needsAllow)
    (h : foundGone event = true) (schedule : Scheduling) (cell : Cell) :
    asksWatch schedule cell link event = true := by
  unfold foundGone at h
  split at h
  · simp [asksWatch, busy, hallow]
  · cases h

theorem asksWatch_of_left {schedule : Scheduling} (hallow : kind link.resting = .needsAllow)
    (left : verdict schedule link event ≠ .run)
    (asked : ¬(event = .start .poll ∧ cell.interval = manually)) :
    asksWatch schedule cell link event = true := by
  unfold asksWatch
  split
  · rename_i why pause
    refine absurd ?_ left
    unfold verdict
    split <;> rfl
  · have hnot : event = .start .poll → ¬cell.interval = manually := not_and.mp asked
    simpa [hallow, left, Decidable.imp_iff_not_or] using hnot

theorem handle_kept (fuel : Nat) {turn : Turn} {event : Event} (spared : Spared turn.cell)
    (grant : ∀ link, turn.cell.link = some link →
      asksWatch host.schedule turn.cell link event = true →
        ¬Pushed turn.cell.pusher host.daemon) :
    Kept turn.cell.pusher (handle host fuel turn event).cell := by
  induction fuel generalizing turn event with
  | zero => exact ⟨rfl, spared⟩
  | succ fuel ih =>
    unfold handle
    split
    · exact ⟨rfl, spared⟩
    · rename_i link hlink
      split
      · exact ⟨rfl, spared⟩
      · rename_i hasked
        split
        · rename_i hverdict
          refine @reconcileWatch_kept host _ (@handle_live host fuel) turn.defer link hlink ?_
          intro hallow
          exact grant link hlink (asksWatch_of_left hallow (by rw [hverdict]; decide) hasked)
        · rename_i hverdict
          refine @reconcileWatch_kept host _ (@handle_live host fuel) turn link hlink ?_
          intro hallow
          exact grant link hlink (asksWatch_of_left hallow (by rw [hverdict]; decide) hasked)
        · have hkept := @moveWatch_kept host _ (@handle_live host fuel) turn link event hlink spared
            fun hbusy hwas hgone =>
              grant link hlink (asksWatch_of_found hbusy hwas hgone host.schedule turn.cell)
          have hshape := @moveWatch_link host _ (@handle_live host fuel) turn link event
          unfold after
          dsimp only
          generalize moveWatch host (handle host fuel) (turn.move host link event) link
            (turn.next host link event) = moved at hkept hshape ⊢
          have hsettled : Kept turn.cell.pusher
              (moved.settled link (turn.next host link event)).cell :=
            ⟨hkept.pusher, hkept.spared⟩
          split
          · rename_i howes
            simp only [Turn.owes, Bool.and_eq_true] at howes
            rw [← hsettled.pusher]
            apply ih hsettled.spared
            intro found hfound hasks
            rw [asksWatch_push howes.2 (resting_of_shape hshape hfound).2] at hasks
            cases hasks
          · split
            · exact (handle_live fuel _ _).kept hsettled
            · exact hsettled

/-! ## The accounts -/

/-- The desktop allows the account, as far as its link knows. -/
def Granted (cell : Cell) : Prop :=
  ∀ link, cell.link = some link → kind link.resting ≠ .needsAllow

theorem granted_of_shape {before now : Cell}
    (h : now.link.map (fun link => (kind link, kind link.resting)) =
      before.link.map fun link => (kind link, kind link.resting)) (k : Granted before) :
    Granted now := by
  intro link hlink hallow
  obtain ⟨was, hwas, _, hsame⟩ := held_of_shape h hlink
  exact k was hwas (hsame.trans hallow)

theorem handle_granted (fuel : Nat) {turn : Turn} (trigger : Trigger) (h : Granted turn.cell) :
    Granted (handle host fuel turn (.start trigger)).cell := by
  induction fuel generalizing turn trigger with
  | zero => exact h
  | succ fuel ih =>
    unfold handle
    split
    · exact h
    · rename_i link hlink
      split
      · exact h
      · split
        · refine granted_of_shape (reconcileWatch_link (@handle_live host fuel) _ link) ?_
          exact h
        · exact granted_of_shape (reconcileWatch_link (@handle_live host fuel) turn link) h
        · have hshape := @moveWatch_link host _ (@handle_live host fuel) turn link (.start trigger)
          have hnext : kind (turn.next host link (.start trigger)).resting ≠ .needsAllow := by
            intro hallow
            rcases step_needsAllow hallow with hbefore | ⟨_, hgone⟩
            · exact h link hlink hbefore
            · cases hgone
          unfold after
          dsimp only
          generalize moveWatch host (handle host fuel) (turn.move host link (.start trigger)) link
            (turn.next host link (.start trigger)) = moved at hshape ⊢
          have hsettled :
              Granted (moved.settled link (turn.next host link (.start trigger))).cell := by
            intro found hfound hallow
            exact hnext ((resting_of_shape hshape hfound).2 ▸ hallow)
          split
          · exact ih _ hsettled
          · split
            · exact granted_of_shape (handle_live fuel _ _).link hsettled
            · exact hsettled

theorem linkFor_kind (last : Option DateTime) (mail : Bool) (now : DateTime) :
    kind (linkFor last mail now).resting = .fresh ∨
      kind (linkFor last mail now).resting = .current := by
  unfold linkFor
  split
  · exact .inl rfl
  · exact .inr rfl

theorem spared_linkFor (h : cell.link = some (linkFor last mail now)) : Spared cell := by
  intro link hlink hperson
  rw [h, Option.some.injEq] at hlink
  subst hlink
  rcases linkFor_kind last mail now with hkind | hkind
  · rw [hkind] at hperson
    cases hperson
  · rw [hkind] at hperson
    cases hperson

theorem granted_linkFor (h : cell.link = some (linkFor last mail now)) : Granted cell := by
  intro link hlink hallow
  rw [h, Option.some.injEq] at hlink
  subst hlink
  rcases linkFor_kind last mail now with hkind | hkind
  · rw [hkind] at hallow
    cases hallow
  · rw [hkind] at hallow
    cases hallow

theorem follow_spared (spared : Spared cell)
    (grant : ∀ link, cell.link = some link → listed.every.isSome = true →
      kind link.resting = .needsAllow → ¬Pushed listed.pusher host.daemon) :
    Spared (follow host listed cell).cell := by
  have hadopted : Kept listed.pusher (adopt host listed cell).cell ∧
      ∀ link, (adopt host listed cell).cell.link = some link → kind link.resting = .needsAllow →
        ¬Pushed listed.pusher host.daemon := by
    unfold adopt
    split
    · have hspared : Spared { cell with
          every := listed.every, pusher := listed.pusher,
          link := some (linkFor listed.last listed.mail host.now) } := spared_linkFor rfl
      have hgranted : Granted { cell with
          every := listed.every, pusher := listed.pusher,
          link := some (linkFor listed.last listed.mail host.now) } := granted_linkFor rfl
      refine ⟨@handle_kept host depth ⟨_, []⟩ _ hspared ?_, fun link h hallow => ?_⟩
      · intro link h hasks
        simp only [asksWatch, Bool.and_eq_true, beq_iff_eq] at hasks
        exact absurd hasks.1.1 (hgranted link h)
      · exact absurd hallow (@handle_granted host depth ⟨_, []⟩ .poll hgranted link h)
    · refine ⟨⟨rfl, fun link h => ?_⟩, fun link h => ?_⟩
      · cases h
      · cases h
    · rename_i hlink _
      refine ⟨⟨rfl, fun link h => ?_⟩, fun link h => ?_⟩
      · rw [hlink] at h
        cases h
      · rw [hlink] at h
        cases h
    · rename_i known every hlink hevery
      exact ⟨⟨rfl, spared⟩, fun link h hallow => grant link h (by rw [hevery]; rfl) hallow⟩
  unfold follow
  dsimp only
  obtain ⟨hkept, hgrant⟩ := hadopted
  split
  · exact hkept.spared
  · rename_i link hlink
    have hallow := hgrant link hlink
    rw [← hkept.pusher] at hallow
    exact (reconcileWatch_kept (@handle_live host depth) hlink hallow).spared

/-! ## Nothing begins at a stop -/

/-- A pass or a watch, which speak to a server. -/
def Task.knocks : Task → Bool
  | .pass _ _ | .watch _ => true
  | .timer _ _ _ => false

/-- Nothing that speaks to a server was set going. -/
def Silent (turn : Turn) : Prop := ∀ task ∈ turn.fresh, task.knocks = false

theorem Quiet.silent (h : Quiet before after) (k : Silent before) :
    Silent after := by
  intro task htask
  obtain ⟨timers, hfresh, htimers⟩ := h.fresh
  rw [hfresh] at htask
  rcases List.mem_append.mp htask with htask | htask
  · exact k task htask
  · obtain ⟨generation, wait, event, rfl⟩ := htimers task htask
    rfl

theorem reconcileWatch_silent {again : Turn → Event → Turn}
    (quiet : ∀ turn live, Quiet turn (again turn (.live live))) {turn : Turn}
    (unwanted : wanted turn.cell.pusher host.daemon link = false) (h : Silent turn) :
    Silent (reconcileWatch host again turn link) := by
  unfold reconcileWatch decideWatch
  rw [unwanted]
  cases turn.cell.watch.isSome with
  | false => exact h
  | true => exact (quiet turn.stopWatch .polling).silent h

theorem resting_of_person (person : needsPerson (kind link) = true) :
    link.resting = link := by
  cases link with
  | syncing first doing count after => cases person
  | fresh | current _ _ _ | waiting _ _ _ _ | needsSignIn _ _ | needsAllow _ _ | broken _ _ => rfl

theorem misheard_stopped (person : needsPerson (kind link) = true) (word : Live) :
    misheard link word = false := by
  cases link with
  | current finished trouble live => cases person
  | fresh | syncing _ _ _ _ | waiting _ _ _ _ | needsSignIn _ _ | needsAllow _ _ | broken _ _ => rfl

theorem handle_silent (fuel : Nat) {turn : Turn} {event : Event} {link : Link}
    (hlink : turn.cell.link = some link) (person : needsPerson (kind link) = true)
    (signedIn : event ≠ .signedIn) (byHand : event ≠ .start .manual)
    (grant : asksWatch host.schedule turn.cell link event = true →
      ¬Pushed turn.cell.pusher host.daemon)
    (h : Silent turn) : Silent (handle host fuel turn event) := by
  have hrest := resting_of_person person
  have hunwanted (hasks : kind link = .needsAllow →
      asksWatch host.schedule turn.cell link event = true) :
      wanted turn.cell.pusher host.daemon link = false := by
    refine wanted_stopped (by rw [hrest]; exact person) fun hallow => grant (hasks ?_)
    rw [← hrest]
    exact hallow
  cases fuel with
  | zero => exact h
  | succ fuel =>
    unfold handle
    simp only [hlink]
    split
    · exact h
    · rename_i hasked
      have hleft (left : verdict host.schedule link event ≠ .run) :
          wanted turn.cell.pusher host.daemon link = false :=
        hunwanted fun hallow => asksWatch_of_left (by rw [hrest]; exact hallow) left hasked
      split
      · rename_i hverdict
        refine reconcileWatch_silent (@handle_live host fuel)
          (hleft (by rw [hverdict]; decide)) ?_
        intro task htask
        rcases List.mem_append.mp htask with htask | htask
        · exact h task htask
        · rw [List.mem_singleton.mp htask]
          rfl
      · rename_i hverdict
        exact reconcileWatch_silent (@handle_live host fuel)
          (hleft (by rw [hverdict]; decide)) h
      · have hstep := step_needsPerson person signedIn byHand host.now turn.cell.interval
        have hnext : turn.next host link event = link := by
          unfold Turn.next
          rw [hstep]
        have hmove : (turn.move host link event).fresh = turn.fresh := by
          unfold Turn.move
          rw [hstep]
          rfl
        have hidle : passEnded link link = false := by
          unfold passEnded
          cases link.isBusy <;> rfl
        unfold after moveWatch
        simp only [hnext, if_true, Turn.owes, hidle, misheard_stopped person, Bool.false_and,
          Bool.false_eq_true, if_false]
        intro task htask
        exact h task (hmove ▸ htask)

theorem follow_silent (hlink : cell.link = some link)
    (person : needsPerson (kind link.resting) = true)
    (grant : listed.every.isSome = true → kind link.resting = .needsAllow →
      ¬Pushed listed.pusher host.daemon) : Silent (follow host listed cell) := by
  unfold follow adopt
  rw [hlink]
  cases hevery : listed.every with
  | none => simp [gone, Silent]
  | some every =>
    refine reconcileWatch_silent (@handle_live host depth) ?_ fun task htask => by cases htask
    exact wanted_stopped person fun hallow => grant (by rw [hevery]; rfl) hallow

/-! ## Runs -/

/-- No note makes the scheduler see to the watch of an account whose grant is gone while the server
can push to it and nobody else holds it. -/
def Allowed (world : World) : Act → Prop
  | .deliver host =>
    match world.inbox with
    | ⟨.event account event, _⟩ :: _ =>
      ∀ link, (world.cells account).link = some link →
        asksWatch host.schedule (world.cells account) link event = true →
          ¬Pushed (world.cells account).pusher host.daemon
    | ⟨.accounts listed, _⟩ :: _ =>
      ∀ account link, (world.cells account).link = some link →
        (listed account).every.isSome = true → kind link.resting = .needsAllow →
          ¬Pushed (listed account).pusher host.daemon
    | [] => True
  | _ => True

def byPerson (world : World) (account : AccountId) : Act → Bool
  | .deliver _ =>
    match world.inbox with
    | ⟨.event of .signedIn, _⟩ :: _ | ⟨.event of (.start .manual), _⟩ :: _ => of == account
    | _ => false
  | _ => false

theorem start_spared (accounts : List AccountId) (listed : AccountId → Listed) (now : DateTime)
    (account : AccountId) : Spared ((World.start accounts listed now).cells account) := by
  unfold World.start
  dsimp only
  split
  · exact spared_linkFor rfl
  · intro link hlink
    cases hlink

theorem start_granted (accounts : List AccountId) (listed : AccountId → Listed) (now : DateTime)
    (account : AccountId) : Granted ((World.start accounts listed now).cells account) := by
  unfold World.start
  dsimp only
  split
  · exact granted_linkFor rfl
  · intro link hlink
    cases hlink

attribute [local simp] Allowed in
theorem act_spared (h : ∀ account, Spared (world.cells account)) (allowed : Allowed world act)
    (account : AccountId) :
    Spared ((world.act act).cells account) := by
  cases act with
  | deliver host =>
    dsimp only [World.act]
    split
    · exact h account
    · rename_i letter rest hinbox
      obtain ⟨note, sender⟩ := letter
      simp only [Allowed, hinbox] at allowed
      cases note with
      | event of event =>
        dsimp only [World.handled]
        by_cases hof : account = of
        · subst hof
          rw [Function.update_self]
          exact (@handle_kept host depth ⟨world.cells account, []⟩ event (h account)
            allowed).spared
        · rw [Function.update_of_ne hof]
          exact h account
      | accounts listed => exact follow_spared (h account) (allowed account)
  | _ =>
    rw [(World.act_framed (by simp)).cells]
    exact h account

theorem act_silent (hlink : (world.cells account).link = some link)
    (person : needsPerson (kind link) = true) (allowed : Allowed world act)
    (byHand : byPerson world account act = false) :
    ∀ task ∈ (world.act act).flight account, task.knocks = true → task ∈ world.flight account := by
  cases act with
  | deliver host =>
    dsimp only [World.act]
    split
    · exact fun task htask _ => htask
    · rename_i letter rest hinbox
      obtain ⟨note, sender⟩ := letter
      simp only [Allowed, hinbox] at allowed
      have hnew {turn : Turn} (hturn : Silent turn) :
          ∀ task ∈ world.flight account ++ turn.fresh, task.knocks = true →
            task ∈ world.flight account := by
        intro task htask hknocks
        rcases List.mem_append.mp htask with htask | htask
        · exact htask
        · rw [hturn task htask] at hknocks
          cases hknocks
      cases note with
      | event of event =>
        dsimp only [World.handled]
        by_cases hof : account = of
        · subst hof
          rw [Function.update_self]
          apply hnew
          refine @handle_silent host depth ⟨_, []⟩ event link hlink person ?_ ?_
            (allowed link hlink) fun task htask => by cases htask
          · rintro rfl
            simp [byPerson, hinbox] at byHand
          · rintro rfl
            simp [byPerson, hinbox] at byHand
        · rw [Function.update_of_ne hof]
          exact fun task htask _ => htask
      | accounts listed =>
        apply hnew
        refine follow_silent hlink (by rw [resting_of_person person]; exact person) ?_
        exact fun hevery hallow => allowed account link hlink hevery hallow
  | _ => exact fun task htask _ => ((World.act_framed (by simp)).flight account).subset htask

/-- A stopped account is left alone: wherever the scheduler is led by such notes, no watch runs for
an account that needs a person, and nothing but the person begins a pass or a watch for it. -/
theorem stopped_left_alone (accounts : List AccountId) (listed : AccountId → Listed)
    (now : DateTime) {world : World}
    (h : Reaches World.act Allowed (World.start accounts listed now) world) (account : AccountId)
    (link : Link) (hlink : (world.cells account).link = some link) :
    (needsPerson (kind link.resting) = true → (world.cells account).watch = none) ∧
      (needsPerson (kind link) = true → ∀ act, Allowed world act →
        byPerson world account act = false →
          ∀ task ∈ (world.act act).flight account, task.knocks = true →
            task ∈ world.flight account) := by
  have hspared := h.invariant (fun world => ∀ account, Spared (world.cells account))
    (start_spared accounts listed now) fun world act hworld allowed => act_spared hworld allowed
  exact ⟨hspared account link hlink, fun hperson act allowed byHand =>
    act_silent hlink hperson allowed byHand⟩

def pushedTo : Listed := ⟨some fallback, true, none, false⟩

/-- The host a second after the first, with nobody else to schedule. -/
def alone : Host := ⟨seconds 1, .window, .absent⟩

/-- The account's watch begins and its first pass ends as told, which the scheduler hears. -/
def firstPass (retry : Retry) : List Act :=
  [.post (.accounts fun _ => pushedTo), .deliver alone, .beat, .deliver alone,
    .ends ⟨1⟩ 1 1 (.failed retry "" .unreachable), .deliver alone]

def afterFirst (retry : Retry) : World :=
  (firstPass retry).foldl World.act (World.start [⟨1⟩] (fun _ => pushedTo) 0)

/-- A pass that finds the grant gone leaves the watch running. -/
theorem grant_gone_watched :
    ¬∀ world, Reaches World.act anyAction (World.start [⟨1⟩] (fun _ => pushedTo) 0) world →
      ∀ account link, (world.cells account).link = some link →
        needsPerson (kind link.resting) = true → (world.cells account).watch = none := by
  intro h
  have hwatch := h _ (Reaches.start.foldl (firstPass .needsGrant)) ⟨1⟩ (.needsAllow "" .yes)
    (by decide +kernel) rfl
  revert hwatch
  decide +kernel

theorem allowed_of_all
    (h : ((world.cells account).link.all fun link =>
      !asksWatch host.schedule (world.cells account) link event) = true) (link : Link)
    (hlink : (world.cells account).link = some link)
    (hasks : asksWatch host.schedule (world.cells account) link event = true) :
    ¬Pushed (world.cells account).pusher host.daemon := by
  rw [hlink, Option.all_some, hasks] at h
  cases h

/-- A pass that is refused the password does stop the watch, and a push does not begin another. -/
theorem refused_left_alone :
    ((afterFirst .needsReauth).cells ⟨1⟩).link = some (.needsSignIn "" .yes) ∧
      ((afterFirst .needsReauth).cells ⟨1⟩).watch = none := by
  have hlink : ((afterFirst .needsReauth).cells ⟨1⟩).link = some (.needsSignIn "" .yes) := by
    decide +kernel
  refine ⟨hlink, (stopped_left_alone [⟨1⟩] (fun _ => pushedTo) 0 ?_ ⟨1⟩ _ hlink).1 rfl⟩
  have hlisted : Reaches World.act Allowed (World.start [⟨1⟩] (fun _ => pushedTo) 0) _ :=
    Reaches.start.next (Act.post (.accounts fun _ => pushedTo)) trivial
  have hwatching := hlisted.next (Act.deliver alone) fun account link hlink _ hallow =>
    absurd hallow (start_granted [⟨1⟩] (fun _ => pushedTo) 0 account link hlink)
  have hbeat := hwatching.next Act.beat trivial
  have hbegun := hbeat.next (Act.deliver alone) (allowed_of_all (by decide +kernel))
  have hended := hbegun.next (Act.ends ⟨1⟩ 1 1 (.failed .needsReauth "" .unreachable)) trivial
  exact hended.next (Act.deliver alone) (allowed_of_all (by decide +kernel))

end Mailo.Engine.Schedule
