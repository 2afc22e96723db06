import Mailo.Engine.Schedule.Passes

/-!
# The scheduler among its passes and watches

What holds of the scheduler whatever order passes, watches, timers and people speak in, as long as
no word of a pass or a watch that no longer counts finds another running.
-/

namespace Mailo.Engine.Schedule

open Domain Logic Library

variable {host : Host}

def heardFrom (watch : Option Nat) (words : List (Nat × Live)) : Live :=
  match watch with
  | none => .polling
  | some id => ((words.find? fun word => word.1 == id).map (·.2)).getD .polling

/-- What a person, or whoever tells of the accounts, sends. -/
def asked : Event → Bool
  | .start _ | .cancel | .tick | .signedIn => true
  | _ => false

/-- A pass is over once it says so, and only passes and watches speak of themselves. -/
def Sent (world : World) (letter : Letter) : Prop :=
  ∀ account event, letter.note = .event account event →
    (ends event = true → ∃ id, letter.sender = .pass id ∧ id < (world.cells account).made ∧
      ∀ generation, .pass id generation ∉ world.flight account) ∧
    (∀ live, event = .live live → ∃ id, letter.sender = .watch id ∧ id < (world.cells account).made)

/-- What holds of one account. -/
structure Sound (world : World) (account : AccountId) : Prop where
  sole : Sole (world.cells account) (world.flight account)
  minds : Minds (world.cells account)
  unknown : (world.cells account).link = none → (world.cells account).watch = none
  word : (world.cells account).lastWord =
    heardFrom (world.cells account).watch (world.spoken account)
  spoken : ∀ word ∈ world.spoken account, word.1 < (world.cells account).made
  timers : ∀ generation wait event, .timer generation wait event ∈ world.flight account →
    isWake event = true

/-- What holds wherever the scheduler is led. -/
structure Settled (world : World) : Prop where
  sound : ∀ account, Sound world account
  sent : ∀ letter ∈ world.inbox, Sent world letter

/-- Nobody but a pass says that it is over, and nobody but a watch whether it is connected. A pass that
no longer counts says nothing while another runs, a watch that no longer runs says nothing new to one
that does, and where a push waits for a pass to finish, nobody watches beside a `mailo watch`. -/
def Orderly (world : World) : Act → Prop
  | .post (.event _ event) => asked event = true
  | .deliver host =>
    match world.inbox with
    | ⟨.event account event, sender⟩ :: _ =>
      ∀ link, (world.cells account).link = some link →
        (∀ id, sender = .pass id → link.isBusy = true →
          (world.cells account).cancel = some id) ∧
        (∀ id live, sender = .watch id → event = .live live →
          (world.cells account).watch ≠ some id → Harmless (world.cells account) live) ∧
        (rerun (world.cells account) link event = true → Agreed host)
    | _ => True
  | _ => True

theorem sound_start (accounts : List AccountId) (listed : AccountId → Listed) (now : DateTime)
    (account : AccountId) : Sound (World.start accounts listed now) account := by
  have hempty : ∀ cell : Cell, Sole cell [] := fun cell =>
    ⟨fun _ _ h => (by cases h), fun _ h => (by cases h), List.nodup_nil,
      fun _ _ h => (by cases h)⟩
  by_cases hknown : account ∈ accounts
  · have hcell : (World.start accounts listed now).cells account =
        { Cell.empty with
          link := some (linkFor (listed account).last (listed account).mail now)
          every := (listed account).every } := if_pos hknown
    refine ⟨hempty _, ?_, fun _ => by rw [hcell]; rfl, by rw [hcell]; rfl, fun _ h => (by cases h),
      fun _ _ _ h => (by cases h)⟩
    rw [hcell]
    exact settles_of_new rfl rfl rfl
  · have hcell : (World.start accounts listed now).cells account = Cell.empty := if_neg hknown
    refine ⟨hempty _, ?_, fun _ => by rw [hcell]; rfl, by rw [hcell]; rfl, fun _ h => (by cases h),
      fun _ _ _ h => (by cases h)⟩
    rw [hcell]
    exact ⟨⟨fun _ => rfl, fun _ _ h => (by cases h)⟩, fun _ _ _ h => (by cases h)⟩

/-! ## What does not handle a note -/

variable {generation id : Nat} {flight : List Task} {account : AccountId} {after world : World}
  {letter : Letter} {event : Event} {sender : Sender} {act : Act} {cell : Cell} {link : Link}
  {rest : List Letter}

theorem once_cons {rest : List Task}
    (h : ((Task.pass id generation :: rest).filterMap Task.pass?).Nodup) (other : Nat) :
    .pass id other ∉ rest := by
  rw [List.filterMap_cons_some (show Task.pass? (.pass id generation) = some id from rfl),
    List.nodup_cons] at h
  exact fun hmem => h.1 (List.mem_filterMap.mpr ⟨_, hmem, rfl⟩)

theorem once_erase (h : (flight.filterMap Task.pass?).Nodup) (hmem : .pass id generation ∈ flight)
    (other : Nat) :
    .pass id other ∉ flight.erase (.pass id generation) := by
  intro hother
  induction flight with
  | nil => cases hmem
  | cons task rest ih =>
    by_cases hhead : task = .pass id generation
    · subst hhead
      rw [List.erase_cons_head] at hother
      exact once_cons h other hother
    · rw [List.erase_cons_tail (by simpa using hhead)] at hother
      have hrest : .pass id generation ∈ rest := (List.mem_cons.mp hmem).resolve_left (Ne.symm hhead)
      rcases List.mem_cons.mp hother with hsame | hlater
      · subst hsame
        exact once_cons h generation hrest
      · exact ih (h.sublist ((List.sublist_cons_self task rest).filterMap _)) hrest hlater

theorem Sound.framed (k : World.Framed world after) (h : Sound world account) :
    Sound after account := by
  have hmem {task : Task} (htask : task ∈ after.flight account) : task ∈ world.flight account :=
    (k.flight account).subset htask
  have hcell : after.cells account = world.cells account := congrFun k.cells account
  refine ⟨⟨fun id generation hpass => ?_, fun id hwatch => ?_, ?_, fun id generation hpass => ?_⟩,
    ?_, ?_, ?_, ?_, fun generation wait event htimer => h.timers generation wait event (hmem htimer)⟩
  · rw [hcell]
    exact h.sole.passes id generation (hmem hpass)
  · rw [hcell]
    exact h.sole.watches id (hmem hwatch)
  · exact h.sole.once.sublist ((k.flight account).filterMap _)
  · rw [hcell]
    exact h.sole.counts id generation (hmem hpass)
  · rw [hcell]
    exact h.minds
  · rw [hcell]
    exact h.unknown
  · rw [hcell, k.spoken]
    exact h.word
  · rw [hcell, k.spoken]
    exact h.spoken

theorem Sent.framed (k : World.Framed world after) (h : Sent world letter) : Sent after letter := by
  intro account event hnote
  obtain ⟨hends, hlive⟩ := h account event hnote
  refine ⟨fun hended => ?_, fun live hword => ?_⟩
  · obtain ⟨id, hsender, hid, hover⟩ := hends hended
    exact ⟨id, hsender, by rw [k.cells]; exact hid, fun generation hmem =>
      hover generation ((k.flight account).subset hmem)⟩
  · obtain ⟨id, hsender, hid⟩ := hlive live hword
    exact ⟨id, hsender, by rw [k.cells]; exact hid⟩

theorem sent_of_asked (h : asked event = true) : Sent world ⟨.event account event, sender⟩ := by
  intro of told hnote
  injection hnote with _ hevent
  subst hevent
  refine ⟨fun hends => ?_, fun live hlive => ?_⟩
  · cases event with
    | start _ | cancel | tick | signedIn => cases hends
    | stepped _ _ | finished _ | failed _ _ _ | live _ => cases h
  · subst hlive
    cases h

theorem asked_of_wake (h : isWake event = true) : asked event = true := by
  cases event with
  | start _ | cancel | tick | signedIn => rfl
  | stepped _ _ | finished _ | failed _ _ _ | live _ => cases h

theorem sent_ending {ending : Ending} (h : Sole (world.cells account) (world.flight account))
    (hmem : .pass id generation ∈ world.flight account) :
    Sent (world.drop account (.pass id generation)) ⟨.event account ending.event, .pass id⟩ := by
  intro of event hnote
  injection hnote with hof hevent
  subst hof hevent
  refine ⟨fun _ => ⟨id, rfl, h.passes id generation hmem, fun other hother => ?_⟩, fun live hlive => ?_⟩
  · unfold World.drop at hother
    dsimp only at hother
    rw [Function.update_self] at hother
    exact once_erase h.once hmem other hother
  · cases ending <;> cases hlive

theorem sent_watch {world : World} {account : AccountId} {id : Nat} {event : Event}
    (h : Sole (world.cells account) (world.flight account))
    (hmem : .watch id ∈ world.flight account) (hends : ends event = false) :
    Sent world ⟨.event account event, .watch id⟩ := by
  intro of told hnote
  injection hnote with hof hevent
  subst hof hevent
  refine ⟨fun hover => ?_, fun live _ => ⟨id, rfl, h.watches id hmem⟩⟩
  rw [hends] at hover
  cases hover

theorem mem_send {notes : List Note} (h : letter ∈ (world.send sender notes).inbox) :
    letter ∈ world.inbox ∨ letter.sender = sender ∧ letter.note ∈ notes := by
  rcases List.mem_append.mp h with hold | hnew
  · exact .inl hold
  · obtain ⟨note, hnote, rfl⟩ := List.mem_map.mp hnew
    exact .inr ⟨rfl, hnote⟩

theorem sent_act (h : Settled world) (orderly : Orderly world act)
    (other : ∀ host, act ≠ .deliver host) : ∀ letter ∈ (world.act act).inbox,
      Sent (world.act act) letter := by
  have hframed := @World.act_framed world _ other
  have hold : ∀ letter ∈ world.inbox, Sent (world.act act) letter := fun letter hletter =>
    (h.sent letter hletter).framed hframed
  intro letter hletter
  obtain ⟨note, sender⟩ := letter
  cases act with
  | deliver host => exact absurd rfl (other host)
  | post said =>
    rcases mem_send hletter with hletter | ⟨_, hnote⟩
    · exact hold _ hletter
    · rw [List.mem_singleton] at hnote
      subst hnote
      cases note with
      | event account event => exact sent_of_asked orderly
      | accounts listed => exact fun account event hnote => by cases hnote
  | beat =>
    rcases mem_send hletter with hletter | ⟨_, hnote⟩
    · exact hold _ hletter
    · obtain ⟨account, _, rfl⟩ := List.mem_map.mp hnote
      exact sent_of_asked rfl
  | fire of generation wait event =>
    dsimp only [World.act] at hletter
    split at hletter
    · rename_i hrunning
      split at hletter
      · rcases mem_send hletter with hletter | ⟨_, hnote⟩
        · exact hold _ hletter
        · rw [List.mem_singleton] at hnote
          subst hnote
          exact sent_of_asked (asked_of_wake ((h.sound of).timers generation wait event hrunning))
      · exact hold _ hletter
    · exact hold _ hletter
  | speaks of id generation doing count =>
    dsimp only [World.act] at hletter
    split at hletter
    · rcases mem_send hletter with hletter | ⟨_, hnote⟩
      · exact hold _ hletter
      · rw [List.mem_singleton] at hnote
        subst hnote
        intro account event hnote
        injection hnote with _ hevent
        subst hevent
        exact ⟨fun hends => (by cases hends), fun live hlive => (by cases hlive)⟩
    · exact hold _ hletter
  | ends of id generation ending =>
    have hsole := (h.sound of).sole
    dsimp only [World.act] at hletter hold ⊢
    by_cases hrunning : .pass id generation ∈ world.flight of
    · rw [if_pos hrunning] at hletter hold ⊢
      by_cases hcurrent : (world.cells of).passes = some generation
      · rw [if_pos hcurrent] at hletter hold ⊢
        rcases mem_send hletter with hletter | ⟨hsender, hnote⟩
        · exact hold _ hletter
        · rw [List.mem_singleton] at hnote
          subst hnote hsender
          exact sent_ending hsole hrunning
      · rw [if_neg hcurrent] at hletter hold ⊢
        exact hold _ hletter
    · rw [if_neg hrunning] at hletter hold ⊢
      exact hold _ hletter
  | hears of id heard =>
    have hsole := (h.sound of).sole
    dsimp only [World.act] at hletter hold ⊢
    by_cases hrunning : .watch id ∈ world.flight of
    · rw [if_pos hrunning] at hletter hold ⊢
      rcases mem_send hletter with hletter | ⟨hsender, hnote⟩
      · exact hold _ hletter
      · rw [List.mem_singleton] at hnote
        subst hnote hsender
        refine @sent_watch (world.send (.watch id) [.event of (eventFor heard)]) of id
          (eventFor heard) hsole hrunning ?_
        cases heard <;> rfl
    · rw [if_neg hrunning] at hletter hold ⊢
      exact hold _ hletter
  | loses of id nudge =>
    have hsole := (h.sound of).sole
    dsimp only [World.act] at hletter hold ⊢
    by_cases hrunning : .watch id ∈ world.flight of ∧ id ∉ (world.cells of).told
    · rw [if_pos hrunning] at hletter hold ⊢
      rcases mem_send hletter with hletter | ⟨hsender, hnote⟩
      · exact hold _ hletter
      · subst hsender
        rcases List.mem_cons.mp hnote with rfl | hnudge
        · exact @sent_watch (world.send (.watch id) _) of id (.live .polling) hsole hrunning.1 rfl
        · cases nudge with
          | false => cases hnudge
          | true =>
            rw [if_pos rfl, List.mem_singleton] at hnudge
            subst hnudge
            exact sent_of_asked rfl
    · rw [if_neg hrunning] at hletter hold ⊢
      exact hold _ hletter
  | quits of id => exact hold _ hletter

/-! ## A delivery -/

/-- What handling a note leaves of one account. -/
structure Turned (world : World) (account : AccountId) (words : List (Nat × Live)) (turn : Turn) :
    Prop where
  sole : SoleTurn (world.flight account) turn
  minds : Minds turn.cell
  unknown : turn.cell.link = none → turn.cell.watch = none
  word : turn.cell.lastWord = heardFrom turn.cell.watch words
  made : (world.cells account).made ≤ turn.cell.made
  fresh : ∀ task ∈ turn.fresh, New (world.cells account).made task

variable {words : List (Nat × Live)} {turn : Turn} {live : Live} {spoken : Words}

theorem heardFrom_new (h : ∀ word ∈ words, word.1 < id) :
    heardFrom (some id) words = .polling := by
  have hnone : (words.find? fun word => word.1 == id) = none := by
    rw [List.find?_eq_none]
    intro word hword
    have hlt := h word hword
    simp only [beq_iff_eq]
    omega
  simp [heardFrom, hnone]

/-- The last word stays that of the watch there is. -/
theorem Speech.heard {before after : Cell} (h : Speech before after)
    (word : before.lastWord = heardFrom before.watch words)
    (spoken : ∀ word ∈ words, word.1 < before.made) :
    after.lastWord = heardFrom after.watch words := by
  rcases h.word with ⟨hwatch, hword⟩ | ⟨hpolling, hnew⟩
  · rw [hwatch, hword, word]
  · rw [hpolling]
    cases hwatch : after.watch with
    | none => rfl
    | some id =>
      have hid := hnew id hwatch
      exact (heardFrom_new fun word hmem => Nat.lt_of_lt_of_le (spoken word hmem) hid).symm

theorem Grows.fresh_new (h : Grows ⟨cell, []⟩ turn) :
    ∀ task ∈ turn.fresh, New cell.made task := by
  obtain ⟨more, hmore, hnew⟩ := h.fresh
  rw [hmore, List.nil_append]
  exact hnew

theorem turned_event (h : Sound world account) (hwordless : wordless event = true)
    (hceased : ∀ link, (world.cells account).link = some link → link.isBusy = true →
      ends event = true → ∀ id generation, .pass id generation ∈ world.flight account →
        id ∈ (world.cells account).told)
    (agreed : ∀ link, (world.cells account).link = some link →
      rerun (world.cells account) link event = true → Agreed host) :
    Turned world account (world.spoken account)
      (handle host depth ⟨world.cells account, []⟩ event) := by
  have hgrows := @handle_grows host depth ⟨world.cells account, []⟩ event
  obtain ⟨hminds, hspeech⟩ := @handle_minds host ⟨world.cells account, []⟩ event hwordless h.minds
    agreed
  refine ⟨handle_sole depth ?_ ?_, hminds, fun hnone => ?_, hspeech.heard h.word h.spoken,
    hgrows.made, hgrows.fresh_new⟩
  · unfold SoleTurn
    rw [List.append_nil]
    exact h.sole
  · rw [List.append_nil]
    exact hceased
  · have hbefore := handle_known depth hnone
    rw [handle_unknown depth hbefore]
    exact h.unknown hbefore

theorem turned_live (h : Sound world account)
    (harmless : (world.cells account).watch ≠ some id → Harmless (world.cells account) live) :
    Turned world account ((id, live) :: world.spoken account)
      (handle host depth ⟨world.cells account, []⟩ (.live live)) := by
  have hgrows := @handle_grows host depth ⟨world.cells account, []⟩ (.live live)
  have hquiet := @handle_live host depth ⟨world.cells account, []⟩ live
  have hsole : SoleTurn (world.flight account) ⟨world.cells account, []⟩ := by
    unfold SoleTurn
    rw [List.append_nil]
    exact h.sole
  have hunknown (hnone : (handle host depth ⟨world.cells account, []⟩ (.live live)).cell.link = none) :
      (handle host depth ⟨world.cells account, []⟩ (.live live)).cell.watch = none := by
    rw [hquiet.watch]
    exact h.unknown (handle_known depth hnone)
  by_cases hwatch : (world.cells account).watch = some id
  · have hstands : Stands (world.cells account) live := .inl (by rw [hwatch]; rfl)
    refine ⟨hquiet.sole hsole, minds_stands h.minds.unsaid hstands, hunknown, ?_, hgrows.made,
      hgrows.fresh_new⟩
    rw [hquiet.watch, hwatch]
    cases hlink : (world.cells account).link with
    | none =>
      rw [h.unknown hlink] at hwatch
      cases hwatch
    | some link =>
      rw [show handle host depth ⟨world.cells account, []⟩ (.live live) = _ from
        handle_stands 3 hlink hstands, move_lastWord hstands]
      simp [heardFrom]
  · obtain ⟨hminds, hunmoved⟩ := @handle_harmless host ⟨world.cells account, []⟩ live h.minds
      (harmless hwatch)
    refine ⟨hquiet.sole hsole, hminds, hunknown, ?_, hgrows.made, hgrows.fresh_new⟩
    rw [hunmoved.lastWord, hunmoved.watch, h.word]
    cases hother : (world.cells account).watch with
    | none => rfl
    | some other =>
      have hne : id ≠ other := by
        rintro rfl
        exact hwatch hother
      simp [heardFrom, hne]

theorem turned_still (h : Sound world account) :
    Turned world account (world.spoken account) ⟨world.cells account, []⟩ := by
  refine ⟨?_, h.minds, h.unknown, h.word, Nat.le_refl _, fun _ htask => by cases htask⟩
  unfold SoleTurn
  rw [List.append_nil]
  exact h.sole

theorem Turned.reconciled (h : Turned world account (world.spoken account) turn)
    (hlink : turn.cell.link = some link)
    (spoken : ∀ word ∈ world.spoken account, word.1 < turn.cell.made) :
    Turned world account (world.spoken account)
      (reconcileWatch host (handle host depth) turn link) := by
  have hgrows := @reconcileWatch_grows host _ (@handle_grows host depth) turn link
  refine ⟨reconcileWatch_sole (@handle_live host depth) link h.sole,
    (reconcileWatch_minds h.minds.toSettles).2 (.inl h.minds), fun hnone => ?_,
    (reconcileWatch_speech h.minds.unsaid link).heard h.word spoken, h.made.trans hgrows.made, ?_⟩
  · have hshape := @reconcileWatch_link host _ (@handle_live host depth) turn link
    rw [hnone, hlink] at hshape
    cases hshape
  · obtain ⟨more, hmore, hnew⟩ := hgrows.fresh
    rw [hmore]
    intro task htask
    rcases List.mem_append.mp htask with htask | htask
    · exact h.fresh task htask
    · exact (hnew task htask).mono h.made

theorem sole_gone (h : Sole cell flight) :
    Sole (gone cell) flight := by
  refine h.of_cell (Nat.le_refl _) fun id generation _ hcounts => .inl ?_
  rcases hcounts with htold | ⟨hcancel, _⟩
  · exact List.mem_append_right _ (List.mem_append_right _ htold)
  · refine List.mem_append_right _ (List.mem_append_left _ ?_)
    rw [hcancel]
    exact List.mem_singleton.mpr rfl

theorem turned_accounts (listed : Listed) (h : Sound world account) :
    Turned world account (world.spoken account) (follow host listed (world.cells account)) := by
  have hadopted : Turned world account (world.spoken account)
      (adopt host listed (world.cells account)) := by
    have hsole : Sole (world.cells account) (world.flight account ++ []) := by
      rw [List.append_nil]
      exact h.sole
    unfold adopt
    split
    · rename_i every hlink _
      have hwatch := h.unknown hlink
      have hminds : Minds { world.cells account with
          every := listed.every, pusher := listed.pusher,
          link := some (linkFor listed.last listed.mail host.now) } :=
        settles_of_new hwatch (h.minds.unsaid hwatch) rfl
      have hstart := @handle_minds host ⟨_, []⟩ (.start .poll) rfl hminds fun _ _ hrerun => by
        cases hrerun
      have hgrows := @handle_grows host depth ⟨{ world.cells account with
          every := listed.every, pusher := listed.pusher,
          link := some (linkFor listed.last listed.mail host.now) }, []⟩ (.start .poll)
      refine ⟨handle_sole depth ?_ (fun _ _ _ hends => by cases hends), hstart.1, fun hnone => ?_,
        hstart.2.heard h.word h.spoken, hgrows.made, hgrows.fresh_new⟩
      · refine Sole.of_cell hsole (Nat.le_refl _) fun id generation _ hcounts => ?_
        rcases hcounts with htold | ⟨_, _, found, hfound, _⟩
        · exact .inl htold
        · rw [hlink] at hfound
          cases hfound
      · cases handle_known depth hnone
    · rename_i known hlink _
      have htold : Sole { world.cells account with
          every := listed.every, pusher := listed.pusher } (world.flight account ++ []) :=
        Sole.of_cell hsole (Nat.le_refl _) fun _ _ _ hcounts => hcounts
      exact ⟨sole_gone htold, ⟨⟨fun _ => rfl, fun _ link hfound => (by cases hfound)⟩,
        fun _ _ _ hfound => (by cases hfound)⟩, fun _ => rfl, rfl, Nat.le_refl _,
        fun _ htask => by cases htask⟩
    · exact ⟨Sole.of_cell hsole (Nat.le_refl _) fun _ _ _ hcounts => hcounts,
        ⟨⟨h.minds.unsaid, h.minds.unwatched⟩, h.minds.current⟩, h.unknown, h.word, Nat.le_refl _,
        fun _ htask => by cases htask⟩
    · exact ⟨Sole.of_cell hsole (Nat.le_refl _) fun _ _ _ hcounts => hcounts,
        ⟨⟨h.minds.unsaid, h.minds.unwatched⟩, h.minds.current⟩, h.unknown, h.word, Nat.le_refl _,
        fun _ htask => by cases htask⟩
  unfold follow
  dsimp only
  split
  · exact hadopted
  · rename_i link hlink
    exact hadopted.reconciled hlink fun word hword =>
      Nat.lt_of_lt_of_le (h.spoken word hword) hadopted.made

theorem recorded_other (h : ∀ id live, letter = ⟨.event account (.live live), .watch id⟩ → False) :
    letter.recorded spoken account = spoken account := by
  unfold Letter.recorded
  split
  · rename_i of live id
    by_cases hof : account = of
    · subst hof
      exact absurd rfl (h id live)
    · rw [Function.update_of_ne hof]
  · rfl

theorem recorded_live :
    (Letter.mk (.event account (.live live)) (.watch id)).recorded spoken account =
      (id, live) :: spoken account := Function.update_self ..

/-- What handling the first letter leaves of each account. -/
theorem turned (h : Settled world) (hinbox : world.inbox = letter :: rest)
    (orderly : Orderly world (.deliver host)) (account : AccountId) :
    Turned world account (letter.recorded world.spoken account)
      (world.turnOf host account letter.note) := by
  have hsound := h.sound account
  obtain ⟨note, sender⟩ := letter
  cases note with
  | accounts listed =>
    rw [recorded_other fun id live hsame => by cases hsame]
    exact turned_accounts (listed account) hsound
  | event of event =>
    by_cases hof : account = of
    · subst hof
      have hturn : world.turnOf host account (.event account event) =
          handle host depth ⟨world.cells account, []⟩ event := if_pos rfl
      have hsent := h.sent _ (by rw [hinbox]; exact .head _) account event rfl
      simp only [Orderly, hinbox] at orderly
      rw [hturn]
      cases hevent : wordless event with
      | true =>
        rw [recorded_other fun id live hsame => by cases hsame; cases hevent]
        refine turned_event hsound hevent (fun link hlink hbusy hends id generation hmem => ?_)
          fun link hlink => (orderly link hlink).2.2
        obtain ⟨hceased, hsender, _, hnone⟩ := hsent.1 hends
        rcases hsound.sole.counts id generation hmem with htold | ⟨hcancel, _⟩
        · exact htold
        · have hcounts := (orderly link hlink).1 hceased hsender hbusy
          rw [hcancel, Option.some.injEq] at hcounts
          subst hcounts
          exact absurd hmem (hnone generation)
      | false =>
        cases event with
        | live live =>
          obtain ⟨id, hsender, _⟩ := hsent.2 live rfl
          subst hsender
          rw [recorded_live]
          refine turned_live hsound fun hwatch link hlink => ?_
          exact (orderly link hlink).2.1 id live rfl rfl hwatch link hlink
        | start _ | stepped _ _ | finished _ | failed _ _ _ | cancel | tick | signedIn =>
          cases hevent
    · have hturn : world.turnOf host account (.event of event) = ⟨world.cells account, []⟩ :=
        if_neg hof
      rw [hturn, recorded_other fun id live hsame => by cases hsame; exact hof rfl]
      exact turned_still hsound

theorem spoken_recorded (h : Sound world account) (sent : Sent world letter) :
    ∀ word ∈ letter.recorded world.spoken account, word.1 < (world.cells account).made := by
  by_cases hlive : ∃ id live, letter = ⟨.event account (.live live), .watch id⟩
  · obtain ⟨id, live, rfl⟩ := hlive
    obtain ⟨said, hsender, hid⟩ := (sent account (.live live) rfl).2 live rfl
    injection hsender with hsame
    subst hsame
    rw [recorded_live]
    intro word hword
    rcases List.mem_cons.mp hword with rfl | hword
    · exact hid
    · exact h.spoken word hword
  · rw [recorded_other fun id live hsame => hlive ⟨id, live, hsame⟩]
    exact h.spoken

theorem settled_deliver (h : Settled world) (hinbox : world.inbox = letter :: rest)
    (orderly : Orderly world (.deliver host))
    (delivered : World.Delivered world host letter rest after) : Settled after := by
  have hturned := turned h hinbox orderly
  have hhead := h.sent letter (by rw [hinbox]; exact .head _)
  refine ⟨fun account => ?_, fun later hlater account event hnote => ?_⟩
  · have hturn := hturned account
    refine ⟨?_, ?_, ?_, ?_, ?_, ?_⟩
    · rw [delivered.cells, delivered.flight]
      exact hturn.sole
    · rw [delivered.cells]
      exact hturn.minds
    · rw [delivered.cells]
      exact hturn.unknown
    · rw [delivered.cells, delivered.spoken]
      exact hturn.word
    · rw [delivered.cells, delivered.spoken]
      intro word hword
      exact Nat.lt_of_lt_of_le (spoken_recorded (h.sound account) hhead word hword) hturn.made
    · rw [delivered.flight]
      intro generation wait event htimer
      rcases List.mem_append.mp htimer with hold | hnew
      · exact (h.sound account).timers generation wait event hold
      · exact hturn.fresh _ hnew
  · rw [delivered.inbox] at hlater
    have hturn := hturned account
    obtain ⟨hends, hlive⟩ := h.sent later (by rw [hinbox]; exact .tail _ hlater)
      account event hnote
    refine ⟨fun hended => ?_, fun live hword => ?_⟩
    · obtain ⟨id, hsender, hid, hover⟩ := hends hended
      refine ⟨id, hsender, ?_, fun generation hmem => ?_⟩
      · rw [delivered.cells]
        exact Nat.lt_of_lt_of_le hid hturn.made
      · rw [delivered.flight] at hmem
        rcases List.mem_append.mp hmem with hold | hnew
        · exact hover generation hold
        · have hle : (world.cells account).made ≤ id := hturn.fresh _ hnew
          omega
    · obtain ⟨id, hsender, hid⟩ := hlive live hword
      refine ⟨id, hsender, ?_⟩
      rw [delivered.cells]
      exact Nat.lt_of_lt_of_le hid hturn.made

theorem settled_act (h : Settled world) (orderly : Orderly world act) :
    Settled (world.act act) := by
  rcases world.act_cases act with ⟨hsame, _⟩ | hother | ⟨host, letter, rest, rfl, hinbox, hdelivered⟩
  · rw [hsame]
    exact h
  · exact ⟨fun account => (h.sound account).framed (World.act_framed hother),
      sent_act h orderly hother⟩
  · exact settled_deliver h hinbox orderly hdelivered

theorem settled_of_reaches {accounts : List AccountId} {listed : AccountId → Listed}
    {now : DateTime} (h : Reaches World.act Orderly (World.start accounts listed now) world) :
    Settled world :=
  h.invariant Settled ⟨sound_start accounts listed now, fun _ hletter => by cases hletter⟩
    fun _ _ hworld => settled_act hworld

/-- The passes of an account that run: in flight, and not told to stop. -/
def World.running (world : World) (account : AccountId) : List Nat :=
  ((world.flight account).filterMap Task.pass?).filter fun id =>
    id ∉ (world.cells account).told

theorem length_le_one {l : List Nat} {only : Option Nat} (nodup : l.Nodup)
    (h : ∀ id ∈ l, only = some id) : l.length ≤ 1 := by
  match l with
  | [] => exact Nat.zero_le _
  | [_] => exact Nat.le_refl _
  | first :: second :: rest =>
    have hfirst := h first (.head _)
    have hsecond := h second (.tail _ (.head _))
    rw [hfirst, Option.some.injEq] at hsecond
    subst hsecond
    exact absurd (.head _) (List.nodup_cons.mp nodup).1

theorem mem_passes (h : id ∈ flight.filterMap Task.pass?) :
    ∃ generation, .pass id generation ∈ flight := by
  obtain ⟨task, htask, hpass⟩ := List.mem_filterMap.mp h
  cases task with
  | pass found generation =>
    rw [Task.pass?, Option.some.injEq] at hpass
    subst hpass
    exact ⟨generation, htask⟩
  | timer _ _ _ | watch _ => cases hpass

theorem Sound.running_le_one (h : Sound world account) :
    (world.running account).length ≤ 1 := by
  refine @length_le_one _ (world.cells account).cancel (h.sole.once.filter _) ?_
  intro id hid
  obtain ⟨hmem, huntold⟩ := List.mem_filter.mp hid
  obtain ⟨generation, hpass⟩ := mem_passes hmem
  rcases h.sole.counts id generation hpass with htold | ⟨hcancel, _⟩
  · simp [htold] at huntold
  · exact hcancel

/-! ## No push is lost -/

/-- A pass runs for the account, and a push waits for it. -/
def Waits (cell : Cell) : Prop :=
  (∃ link, cell.link = some link ∧ link.isBusy = true) ∧ cell.dirty = true

def AnotherPass (world after : World) (account : AccountId) : Prop :=
  ∃ id generation link, .pass id generation ∈ after.flight account ∧
    (∀ old, .pass id old ∉ world.flight account) ∧ (after.cells account).cancel = some id ∧
    (after.cells account).link = some link ∧ link.isBusy = true

/-- How a pass that a push waits for ends: it finishes, and another follows where this process
schedules; it fails or is cancelled; or its account is gone. -/
inductive EndsBy (world after : World) (account : AccountId) : Act → Prop
  | finished (host : Host) (trouble : List Trouble) (sender : Sender) (rest : List Letter) :
      world.inbox = ⟨.event account (.finished trouble), sender⟩ :: rest →
        (host.schedule = .window → AnotherPass world after account) →
          EndsBy world after account (.deliver host)
  | stopped (host : Host) (event : Event) (sender : Sender) (rest : List Letter) :
      world.inbox = ⟨.event account event, sender⟩ :: rest → stops event = true →
        EndsBy world after account (.deliver host)
  | gone (host : Host) (listed : AccountId → Listed) (sender : Sender) (rest : List Letter) :
      world.inbox = ⟨.accounts listed, sender⟩ :: rest → (listed account).every = none →
        EndsBy world after account (.deliver host)

theorem push_waits (hinbox : world.inbox = ⟨.event account (.start .push), sender⟩ :: rest)
    (hlink : (world.cells account).link = some link) (hbusy : link.isBusy = true) :
    Waits ((world.act (.deliver host)).cells account) := by
  have hdelivered := World.act_delivered hinbox host
  have hturn : world.turnOf host account (.event account (.start .push)) =
      handle host depth ⟨world.cells account, []⟩ (.start .push) := if_pos rfl
  obtain ⟨hrunning, hdirty⟩ := @handle_running host ⟨world.cells account, []⟩ link (.start .push)
    hlink hbusy rfl rfl
  rw [hdelivered.cells, hturn]
  exact ⟨hrunning.busy, hdirty rfl⟩

theorem reconcileWatch_running {turn : Turn} {link : Link} (hlink : turn.cell.link = some link)
    (hbusy : link.isBusy = true) :
    Running turn.cell (reconcileWatch host (handle host depth) turn link).cell := by
  have hshape := @reconcileWatch_link host _ (@handle_live host depth) turn link
  rw [hlink] at hshape
  obtain ⟨held, hheld, hkind⟩ := held_of_some hshape
  refine ⟨⟨held, hheld, by rw [isBusy_of_kind hkind]; exact hbusy⟩, ?_, ?_⟩
  · unfold reconcileWatch
    split
    · rfl
    · rw [(handle_live depth _ .polling).cell]
      rfl
    · rfl
  · intro hdirty
    unfold reconcileWatch
    split
    · exact hdirty
    · rw [(handle_live depth _ .polling).cell]
      exact hdirty
    · exact hdirty

theorem follow_running {listed : Listed} {every : Duration} (hlink : cell.link = some link)
    (hbusy : link.isBusy = true) (hevery : listed.every = some every) :
    Running cell (follow host listed cell).cell := by
  have hfollow : follow host listed cell = reconcileWatch host (handle host depth)
      ⟨{ cell with every := listed.every, pusher := listed.pusher }, []⟩ link := by
    simp only [follow, adopt, hlink, hevery]
  have hrunning := @reconcileWatch_running host
    ⟨{ cell with every := listed.every, pusher := listed.pusher }, []⟩ link hlink hbusy
  rw [hfollow]
  exact ⟨hrunning.busy, hrunning.cancel, hrunning.dirty⟩

/-- A push that waits goes on waiting until the pass ends, and is not forgotten then. -/
theorem waits_act (h : Settled world) (waits : Waits (world.cells account)) :
    (Waits ((world.act act).cells account) ∧
        ((world.act act).cells account).cancel = (world.cells account).cancel) ∨
      EndsBy world (world.act act) account act := by
  obtain ⟨⟨link, hlink, hbusy⟩, hdirty⟩ := waits
  have hstill {cell : Cell} (hrunning : Running (world.cells account) cell) :
      Waits cell ∧ cell.cancel = (world.cells account).cancel :=
    ⟨⟨hrunning.busy, hrunning.dirty hdirty⟩, hrunning.cancel⟩
  rcases world.act_cases act with ⟨hsame, _⟩ | hother | ⟨host, letter, rest, rfl, hinbox, hdelivered⟩
  · rw [hsame]
    exact .inl ⟨⟨⟨link, hlink, hbusy⟩, hdirty⟩, rfl⟩
  · rw [(World.act_framed hother).cells]
    exact .inl ⟨⟨⟨link, hlink, hbusy⟩, hdirty⟩, rfl⟩
  · obtain ⟨note, sender⟩ := letter
    cases note with
    | accounts listed =>
      cases hevery : (listed account).every with
      | none => exact .inr (.gone host listed sender rest hinbox hevery)
      | some every =>
        rw [hdelivered.cells]
        exact .inl (hstill (follow_running hlink hbusy hevery))
    | event of event =>
      by_cases hof : account = of
      · subst hof
        have hturn : world.turnOf host account (.event account event) =
            handle host depth ⟨world.cells account, []⟩ event := if_pos rfl
        cases hstops : stops event with
        | true => exact .inr (.stopped host event sender rest hinbox hstops)
        | false =>
          cases hends : ends event with
          | false =>
            rw [hdelivered.cells, hturn]
            exact .inl (hstill (@handle_running host ⟨world.cells account, []⟩ link event hlink
              hbusy hends hstops).1)
          | true =>
            cases event with
            | finished trouble =>
              refine .inr (.finished host trouble sender rest hinbox fun hwindow => ?_)
              obtain ⟨id, generation, hcancel, hmem, held, hheld, hrunning⟩ :=
                @handle_reruns host ⟨world.cells account, []⟩ link hlink hbusy hdirty hwindow
                  trouble
              have hnew : (world.cells account).made ≤ id :=
                (@handle_grows host depth ⟨world.cells account, []⟩
                  (.finished trouble)).fresh_new _ hmem
              refine ⟨id, generation, held, ?_, fun old hold => ?_, ?_, ?_, hrunning⟩
              · rw [hdelivered.flight, hturn]
                exact List.mem_append_right _ hmem
              · have hlt := (h.sound account).sole.passes id old hold
                omega
              · rw [hdelivered.cells, hturn]
                exact hcancel
              · rw [hdelivered.cells, hturn]
                exact hheld
            | failed retry why pause => cases hstops
            | start _ | stepped _ _ | cancel | tick | signedIn | live _ => cases hends
      · have hturn : world.turnOf host account (.event of event) = ⟨world.cells account, []⟩ :=
          if_neg hof
        rw [hdelivered.cells, hturn]
        exact .inl ⟨⟨⟨link, hlink, hbusy⟩, hdirty⟩, rfl⟩

/-- A word of a pass that no longer counts, or of a watch that no longer runs. -/
def Stale (cell : Cell) (account : AccountId) (letter : Letter) : Prop :=
  (∃ id event, letter = ⟨.event account event, .pass id⟩ ∧ passWord event = true ∧
    cell.cancel ≠ some id) ∨
  ∃ id live, letter = ⟨.event account (.live live), .watch id⟩ ∧ cell.watch ≠ some id

theorem stale_ignored (h : Settled world) (hinbox : world.inbox = letter :: rest)
    (orderly : Orderly world (.deliver host)) (stale : Stale (world.cells account) account letter) :
    ((world.act (.deliver host)).cells account).link = (world.cells account).link := by
  have hdelivered := World.act_delivered hinbox host
  have hsound := h.sound account
  rcases stale with ⟨id, event, rfl, hword, hcancel⟩ | ⟨id, live, rfl, hwatch⟩
  · have hturn : world.turnOf host account (.event account event) =
        handle host depth ⟨world.cells account, []⟩ event := if_pos rfl
    rw [hdelivered.cells, hturn]
    simp only [Orderly, hinbox] at orderly
    cases hlink : (world.cells account).link with
    | none =>
      rw [handle_unknown depth hlink]
      exact hlink
    | some link =>
      have hidle : link.isBusy = false := by
        rw [Bool.eq_false_iff]
        exact fun hbusy => hcancel ((orderly link hlink).1 id rfl hbusy)
      rw [@handle_idle host ⟨world.cells account, []⟩ link event hsound.minds hlink hidle hword]
      exact hlink
  · have hturn : world.turnOf host account (.event account (.live live)) =
        handle host depth ⟨world.cells account, []⟩ (.live live) := if_pos rfl
    rw [hdelivered.cells, hturn]
    simp only [Orderly, hinbox] at orderly
    refine (@handle_harmless host ⟨world.cells account, []⟩ live hsound.minds ?_).2.link
    exact fun link hlink => (orderly link hlink).2.1 id live rfl rfl hwatch link hlink

theorem silent_ends (h : (world.cells account).passes ≠ some generation) (id : Nat)
    (ending : Ending) :
    (world.act (.ends account id generation ending)).inbox = world.inbox := by
  dsimp only [World.act]
  split
  · rfl
  · rfl

/-- No pass doubles, no push is lost, and no word counts out of its time. -/
structure Undoubled (world : World) (account : AccountId) : Prop where
  single : (world.running account).length ≤ 1
  heard : ∀ host sender rest link,
    world.inbox = ⟨.event account (.start .push), sender⟩ :: rest →
      (world.cells account).link = some link → link.isBusy = true →
        Waits ((world.act (.deliver host)).cells account)
  followed : Waits (world.cells account) → ∀ act,
    (Waits ((world.act act).cells account) ∧
        ((world.act act).cells account).cancel = (world.cells account).cancel) ∨
      EndsBy world (world.act act) account act
  silent : ∀ generation, (world.cells account).passes ≠ some generation → ∀ id ending,
    (world.act (.ends account id generation ending)).inbox = world.inbox
  ignored : ∀ host letter rest, world.inbox = letter :: rest → Orderly world (.deliver host) →
    Stale (world.cells account) account letter →
      ((world.act (.deliver host)).cells account).link = (world.cells account).link
  marked : ∀ finished trouble live,
    (world.cells account).link = some (.current finished trouble live) →
      live = heardFrom (world.cells account).watch (world.spoken account)

/-- Whatever order things happen in, as long as no word that no longer counts finds another running. -/
theorem undoubled (accounts : List AccountId) (listed : AccountId → Listed) (now : DateTime)
    {world : World} (h : Reaches World.act Orderly (World.start accounts listed now) world)
    (account : AccountId) : Undoubled world account := by
  have hsettled := settled_of_reaches h
  have hsound := hsettled.sound account
  refine ⟨hsound.running_le_one, fun host sender rest link hinbox hlink hbusy =>
    push_waits hinbox hlink hbusy, fun hwaits act => waits_act hsettled hwaits,
    fun generation hstale id ending => silent_ends hstale id ending,
    fun host letter rest hinbox orderly stale => stale_ignored hsettled hinbox orderly stale,
    fun finished trouble live hlink => ?_⟩
  rw [← hsound.word]
  exact hsound.minds.current finished trouble live hlink

/-- An account the server can push to. -/
def offered : Listed := ⟨some fallback, true, none, false⟩

def hostAtStart : Host := ⟨seconds 1, .window, .absent⟩

/-- A pass that ends as it is cancelled, and is begun again by hand: what it said last waits in the
channel behind both. -/
def overtaken : List Act :=
  [.beat, .deliver hostAtStart, .post (.event ⟨1⟩ .cancel), .post (.event ⟨1⟩ (.start .manual)),
    .ends ⟨1⟩ 0 1 (.finished []), .deliver hostAtStart, .deliver hostAtStart, .deliver hostAtStart,
    .post (.event ⟨1⟩ (.start .manual)), .deliver hostAtStart]

/-- The word of the cancelled pass ends the wait for the next, and a third runs beside it. -/
theorem pass_doubled :
    ¬∀ world, Reaches World.act anyAction (World.start [⟨1⟩] (fun _ => offered) 0) world →
      ∀ account, (world.running account).length ≤ 1 := by
  intro h
  have hone := h _ (Reaches.start.foldl overtaken) ⟨1⟩
  revert hone
  decide +kernel

theorem orderly_event (hinbox : world.inbox = ⟨.event account event, sender⟩ :: rest)
    (hsender : sender = .timer ∨ ∃ id, sender = .watch id ∧ wordless event = true)
    (hevent : ∀ trouble, event ≠ .finished trouble) : Orderly world (.deliver host) := by
  simp only [Orderly, hinbox]
  intro link _
  refine ⟨fun id hpass => ?_, fun id live hwatch hlive => ?_, fun hrerun => ?_⟩
  · rcases hsender with rfl | ⟨_, rfl, _⟩
    · cases hpass
    · cases hpass
  · subst hlive
    rcases hsender with rfl | ⟨_, _, hwordless⟩
    · cases hwatch
    · cases hwordless
  · unfold rerun at hrerun
    split at hrerun
    · rename_i trouble
      exact absurd rfl (hevent trouble)
    · cases hrerun

def heardRunning : World :=
  [Act.post (.accounts fun _ => offered), .deliver hostAtStart, .beat, .deliver hostAtStart,
    .hears ⟨1⟩ 0 .mail].foldl World.act (World.start [⟨1⟩] (fun _ => offered) 0)

/-- A push while the first pass runs, which is one pass still, and for which the push waits. -/
theorem push_while_running :
    (heardRunning.running ⟨1⟩).length ≤ 1 ∧
      Waits ((heardRunning.act (.deliver hostAtStart)).cells ⟨1⟩) := by
  have hstart : Reaches World.act Orderly (World.start [⟨1⟩] (fun _ => offered) 0) _ := .start
  have hlisted := (hstart.next (Act.post (.accounts fun _ => offered)) trivial).next
    (Act.deliver hostAtStart) trivial
  have hbegun := (hlisted.next Act.beat trivial).next (Act.deliver hostAtStart)
    (orderly_event rfl (.inl rfl) (by simp))
  have hpushed := undoubled [⟨1⟩] (fun _ => offered) 0
    (hbegun.next (Act.hears ⟨1⟩ 0 .mail) trivial) ⟨1⟩
  exact ⟨hpushed.single, hpushed.heard hostAtStart (.watch 0) []
    (.syncing .yes .connecting none .fresh) rfl (by decide +kernel) rfl⟩

end Mailo.Engine.Schedule
