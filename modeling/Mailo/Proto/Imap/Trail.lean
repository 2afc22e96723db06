import Mailo.Proto.Imap.Session

/-!
# The trail of a session

A session deals with its commands in their order. Whatever the server says and whenever it is
interrupted, the commands dealt with are the first ones of the walk, each was written or passed
over as what the server had said by then decided, and none was written before the one before it
was completed or its refusal tolerated.
-/

namespace Mailo.Proto.Imap

open Domain Library Proto.Search

/-- What was known at one moment was still known at a later one. -/
structure Transcript.Grows (earlier later : Transcript) : Prop where
  untagged : earlier.untagged <+: later.untagged
  completed : earlier.completed <+: later.completed

theorem Transcript.Grows.refl (t : Transcript) : t.Grows t :=
  ⟨List.prefix_refl _, List.prefix_refl _⟩

theorem Transcript.Grows.trans {a b c : Transcript} (hab : a.Grows b) (hbc : b.Grows c) :
    a.Grows c :=
  ⟨hab.untagged.trans hbc.untagged, hab.completed.trans hbc.completed⟩

namespace Session

/-- A command was dealt with as what was known decided. -/
def Fits (commands : List ImapCommand) (i : Nat) (d : Decided) : Prop :=
  ∃ command, commands[i]? = some command ∧
    ((decision commands d.knew i command = .pass ∧ d.sent = none) ∨
      ∃ sent, decision commands d.knew i command = .send sent ∧ d.sent = some sent)

/-- The command at `i` was completed, or its refusal passed over. -/
def Settled (commands : List ImapCommand) (i : Nat) (knew : Transcript) : Prop :=
  (∃ text, ⟨i, text⟩ ∈ knew.completed) ∨ tolerates commands[i]? = true

variable {commands : List ImapCommand} {i : Nat}

theorem Settled.grows {a b : Transcript} (h : Settled commands i a) (hab : a.Grows b) :
    Settled commands i b := by
  rcases h with ⟨text, htext⟩ | h
  · exact .inl ⟨text, hab.completed.subset htext⟩
  · exact .inr h

/-- A trail as the commands and the server's words make it. -/
structure Trailed (commands : List ImapCommand) (trail : List Decided) : Prop where
  fits : ∀ (i : Nat) (d : Decided), trail[i]? = some d → Fits commands i d
  grows : ∀ (i j : Nat) (d e : Decided), i ≤ j → trail[i]? = some d → trail[j]? = some e → d.knew.Grows e.knew
  settled : ∀ (i j : Nat) (d e : Decided), i < j → trail[i]? = some d → trail[j]? = some e → d.sent ≠ none →
    Settled commands i e.knew
  unbroken : ∀ d ∈ trail, ∀ set what tolerate, d.sent = some (.uidStore set what tolerate) →
    what.toList.any isLineBreak = false

theorem Trailed.nil (commands : List ImapCommand) : Trailed commands [] where
  fits i d h := by simp at h
  grows i j d e _ h := by simp at h
  settled i j d e _ h := by simp at h
  unbroken d h := by cases h

theorem getElem?_concat {α : Type} {xs : List α} {x y : α} (h : (xs ++ [x])[i]? = some y) :
    xs[i]? = some y ∨ (i = xs.length ∧ y = x) := by
  rw [List.getElem?_append] at h
  split at h
  · exact .inl h
  · rename_i hi
    have hzero : i - xs.length = 0 := by
      by_contra hne
      rw [List.getElem?_singleton, if_neg hne] at h
      cases h
    rw [hzero] at h
    exact .inr ⟨by omega, by simpa using h.symm⟩

/-- Between two commands: those before `index` are dealt with, and what they knew is still
known. -/
structure Ready (commands : List ImapCommand) (session : Session) (index : Nat) : Prop where
  same : session.commands = commands
  length : session.trail.length = index
  trailed : Trailed commands session.trail
  heard : ∀ d ∈ session.trail, d.knew.Grows session.transcript
  settled : ∀ (i : Nat) (d : Decided), session.trail[i]? = some d → d.sent ≠ none →
    Settled commands i session.transcript

theorem Ready.trailed_more {session : Session} {index : Nat} (h : Ready commands session index)
    {d : Decided} (hfits : Fits commands index d) (hknew : d.knew = session.transcript)
    (hwords : ∀ set what tolerate, d.sent = some (.uidStore set what tolerate) →
      what.toList.any isLineBreak = false) :
    Trailed commands (session.trail ++ [d]) where
  fits i e he := by
    rcases getElem?_concat he with he | ⟨rfl, rfl⟩
    · exact h.trailed.fits i e he
    · rw [h.length]
      exact hfits
  grows i j e f hij he hf := by
    rcases getElem?_concat he with hearlier | ⟨hi, hlast⟩
    · rcases getElem?_concat hf with hlater | ⟨_, hlast⟩
      · exact h.trailed.grows i j e f hij hearlier hlater
      · rw [hlast, hknew]
        exact h.heard e (List.mem_of_getElem? hearlier)
    · rcases getElem?_concat hf with hlater | ⟨_, hlast'⟩
      · have hlt := (List.getElem?_eq_some_iff.mp hlater).1
        omega
      · rw [hlast, hlast']
        exact .refl _
  settled i j e f hij he hf hsent := by
    rcases getElem?_concat he with hearlier | ⟨hi, _⟩
    · rcases getElem?_concat hf with hlater | ⟨_, hlast⟩
      · exact h.trailed.settled i j e f hij hearlier hlater hsent
      · rw [hlast, hknew]
        exact h.settled i e hearlier hsent
    · rcases getElem?_concat hf with hlater | ⟨hj, _⟩
      · have hlt := (List.getElem?_eq_some_iff.mp hlater).1
        omega
      · omega
  unbroken e he := by
    rcases List.mem_append.mp he with he | he
    · exact h.trailed.unbroken e he
    · rw [List.mem_singleton.mp he]
      exact hwords

end Session

/-- The command a phase waits on, if it waits on one of the walk. -/
def Phase.place : Phase → Option Nat
  | .running index _ | .idlePending index _ | .idling index _ | .idleEnding index _
  | .appendPending index _ _ | .literalPending index _ _ _ => some index
  | _ => none

namespace Session

/-- A session as it stands between two events. -/
structure Tracks (commands : List ImapCommand) (session : Session) : Prop where
  same : session.commands = commands
  trailed : Trailed commands session.trail
  waits : ∀ index, session.phase.place = some index → session.trail.length = index + 1
  fresh : session.phase.place = none → session.phase ≠ .finished → session.trail = []
  heard : session.phase ≠ .finished → ∀ d ∈ session.trail, d.knew.Grows session.transcript

variable {session before : Session} {commands : List ImapCommand} {index : Nat} {phase : Phase}
  {next : Session × Progress Transcript}

theorem Tracks.of_fresh (h : session.trail = []) (hphase : session.phase.place = none) :
    Tracks session.commands session where
  same := rfl
  trailed := by
    rw [h]
    exact .nil _
  waits index hindex := by
    rw [hphase] at hindex
    cases hindex
  fresh _ _ := h
  heard _ d hd := by
    rw [h] at hd
    cases hd

/-- What does not issue a command: the trail stays, what was heard is kept, and the session waits
on the same command as before. -/
structure Stays (before after : Session) : Prop where
  commands : after.commands = before.commands
  trail : after.trail = before.trail
  place : after.phase.place = before.phase.place
  «over» : after.phase = .finished ↔ before.phase = .finished
  grows : before.transcript.Grows after.transcript

theorem Stays.refl (session : Session) : Stays session session :=
  ⟨rfl, rfl, rfl, .rfl, .refl _⟩

theorem Stays.trans {a b c : Session} (hab : Stays a b) (hbc : Stays b c) : Stays a c where
  commands := hbc.commands.trans hab.commands
  trail := hbc.trail.trans hab.trail
  place := hbc.place.trans hab.place
  «over» := hbc.over.trans hab.over
  grows := hab.grows.trans hbc.grows

theorem Stays.tracks {after : Session} (h : Stays before after) (hbefore : Tracks commands before) :
    Tracks commands after where
  same := by rw [h.commands, hbefore.same]
  trailed := by
    rw [h.trail]
    exact hbefore.trailed
  waits index hindex := by
    rw [h.place] at hindex
    rw [h.trail]
    exact hbefore.waits index hindex
  fresh hnone hlive := by
    rw [h.place] at hnone
    rw [h.trail]
    exact hbefore.fresh hnone fun hover => hlive (h.over.mpr hover)
  heard hlive d hd := by
    rw [h.trail] at hd
    exact (hbefore.heard (fun hover => hlive (h.over.mpr hover)) d hd).trans h.grows

theorem Tracks.of_finished (hsame : session.commands = commands)
    (htrailed : Trailed commands session.trail) (hphase : session.phase = .finished) :
    Tracks commands session where
  same := hsame
  trailed := htrailed
  waits index hindex := by
    rw [hphase] at hindex
    cases hindex
  fresh _ hne := absurd hphase hne
  heard hne := absurd hphase hne

theorem place_live (h : phase.place = some index) :
    phase ≠ .finished := by
  rintro rfl
  cases h

theorem drop_cons {α : Type} {xs rest : List α} {x : α} {i : Nat} (h : xs.drop i = x :: rest) :
    xs[i]? = some x ∧ xs.drop (i + 1) = rest := by
  constructor
  · rw [← List.head?_drop, h]
    rfl
  · rw [← List.tail_drop, h]
    rfl

/-- What a guard or a command with nothing to act on leaves behind. -/
theorem Ready.pass (h : Ready commands session index)
    (hfits : Fits commands index ⟨none, session.transcript⟩) :
    Ready commands { session with trail := session.trail ++ [⟨none, session.transcript⟩] }
      (index + 1) where
  same := h.same
  length := by simp [h.length]
  trailed := h.trailed_more hfits rfl (by simp)
  heard d hd := by
    rcases List.mem_append.mp hd with hd | hd
    · exact h.heard d hd
    · rw [List.mem_singleton.mp hd]
      exact .refl _
  settled i d hd hsent := by
    rcases getElem?_concat hd with hd | ⟨_, rfl⟩
    · exact h.settled i d hd hsent
    · exact absurd rfl hsent

/-- The command waited on is settled, so the next one's turn has come. -/
theorem Tracks.ready {after : Session} (h : Tracks commands before)
    (hplace : before.phase.place = some index) (hsame : after.commands = before.commands)
    (htrail : after.trail = before.trail) (hgrows : before.transcript.Grows after.transcript)
    (hsettled : Settled commands index after.transcript) : Ready commands after (index + 1) where
  same := hsame.trans h.same
  length := by rw [htrail, h.waits index hplace]
  trailed := by
    rw [htrail]
    exact h.trailed
  heard d hd := by
    rw [htrail] at hd
    exact (h.heard (place_live hplace) d hd).trans hgrows
  settled i d hd hsent := by
    rw [htrail] at hd
    have hlength := h.waits index hplace
    have hi := (List.getElem?_eq_some_iff.mp hd).1
    by_cases hlast : i = index
    · rw [hlast]
      exact hsettled
    · have hbound : index < before.trail.length := by omega
      have hat := List.getElem?_eq_getElem hbound
      have hearlier := h.trailed.settled i index d _ (by omega) hd hat hsent
      exact (hearlier.grows (h.heard (place_live hplace) _ (List.mem_of_getElem? hat))).grows hgrows

theorem Tracks.ready_first {after : Session} (h : Tracks commands before)
    (hplace : before.phase.place = none) (hlive : before.phase ≠ .finished)
    (hsame : after.commands = before.commands) (htrail : after.trail = before.trail) :
    Ready commands after 0 := by
  have hnil : after.trail = [] := htrail.trans (h.fresh hplace hlive)
  exact
    { same := hsame.trans h.same
      length := by rw [hnil]; rfl
      trailed := by rw [hnil]; exact .nil _
      heard := by simp [hnil]
      settled := by simp [hnil] }

/-- A walk dealt with to its end, each command written having been completed or its refusal
passed over. -/
structure Complete (commands : List ImapCommand) (trail : List Decided) (out : Transcript) :
    Prop where
  length : trail.length = commands.length
  heard : ∀ d ∈ trail, d.knew.Grows out
  settled : ∀ (i : Nat) (d : Decided), trail[i]? = some d → d.sent ≠ none →
    Settled commands i out

theorem Complete.grows {trail : List Decided} {a b : Transcript} (h : Complete commands trail a)
    (hab : a.Grows b) : Complete commands trail b where
  length := h.length
  heard d hd := (h.heard d hd).trans hab
  settled i d hd hsent := (h.settled i d hd hsent).grows hab

/-- A session as it stands between two events. One that is over and still waits has only to switch
its transport. -/
structure Stands (commands : List ImapCommand) (session : Session) : Prop where
  tracks : Tracks commands session
  rests : session.phase = .finished → Complete commands session.trail session.transcript

/-- What one event comes to. -/
structure Lands (commands : List ImapCommand) (next : Session × Progress Transcript) : Prop where
  tracks : Tracks commands next.1
  rests : next.2.isNeed = true → next.1.phase = .finished →
    Complete commands next.1.trail next.1.transcript
  done : ∀ out, next.2 = .done out →
    next.1.phase = .finished ∧ Complete commands next.1.trail out

theorem Lands.stands (h : Lands commands next) (hneed : next.2.isNeed = true) :
    Stands commands next.1 :=
  ⟨h.tracks, h.rests hneed⟩

theorem Stays.stands {after : Session} (h : Stays before after) (hbefore : Stands commands before) :
    Stands commands after where
  tracks := h.tracks hbefore.tracks
  rests hover := by
    rw [h.trail]
    exact (hbefore.rests (h.over.mp hover)).grows h.grows

theorem Stands.need (h : Stands commands session) (needs : List IoNeed) :
    Lands commands (session, .need needs) where
  tracks := h.tracks
  rests _ := h.rests
  done out hout := by cases hout

theorem Tracks.fail (h : Tracks commands session) (error : ProtoError) :
    Lands commands (session.fail error) where
  tracks := .of_finished h.same h.trailed rfl
  rests hneed := by cases hneed
  done out hout := by cases hout

theorem Ready.fail (h : Ready commands session index) (error : ProtoError) :
    Lands commands (session.fail error) where
  tracks := .of_finished h.same h.trailed rfl
  rests hneed := by cases hneed
  done out hout := by cases hout

/-- A command of the session's own leaves the walk untouched. -/
theorem Ready.ask (h : Ready commands session 0) (what : String) {phase : String → Phase}
    (hplace : ∀ tag, (phase tag).place = none) (hlive : ∀ tag, phase tag ≠ .finished) :
    Lands commands (session.ask what phase) where
  tracks :=
    { same := h.same
      trailed := h.trailed
      waits := by
        intro index hindex
        exact absurd ((hplace _).symm.trans hindex) (by simp)
      fresh := fun _ _ => List.length_eq_zero_iff.mp h.length
      heard := fun _ => h.heard }
  rests _ hover := absurd hover (hlive _)
  done out hout := by cases hout

section Machine

variable [TextTables] [ImapDates]

variable {index : Nat} {session : Session} {commands : List ImapCommand}

/-- Once a command is written the session waits on it. -/
theorem written_place {tag : String} {command : ImapCommand} {bytes : Bytes}
    (h : session.written index tag command = .ok (phase, bytes)) : phase.place = some index := by
  unfold written at h
  split at h
  · rcases map_eq_ok h with ⟨cut, _, hcut⟩
    split at hcut
    · cases hcut
      rfl
    · cases hcut
      rfl
  · rcases map_eq_ok h with ⟨line, _, hline⟩
    split at hline
    · cases hline
      rfl
    · cases hline
      rfl
    · split at hline
      · cases hline
        rfl
      · cases hline
        rfl
    · cases hline
      rfl

theorem written_unbroken {tag set what : String} {tolerate : Bool} {out : Phase × Bytes}
    (h : session.written index tag (.uidStore set what tolerate) = .ok out) :
    what.toList.any isLineBreak = false := by
  rcases map_eq_ok h with ⟨line, hline, _⟩
  simp only [render, renderBody, checkSet] at hline
  cases hset : isSet set with
  | false =>
    simp only [hset, Bool.false_eq_true, if_false] at hline
    cases hline
  | true =>
    simp only [hset, if_true] at hline
    split at hline
    · cases hline
    · rename_i hbreak
      simp only [String.toList_append, List.any_append, Bool.or_eq_true, not_or,
        Bool.not_eq_true] at hbreak
      exact hbreak.2

theorem send_lands (h : Ready commands session index) {sent : ImapCommand}
    (hfits : Fits commands index ⟨some sent, session.transcript⟩) :
    Lands commands (session.send index sent) := by
  unfold send
  dsimp only
  split
  · have htagged : Ready commands
        { session with counter := session.counter + 1, held := 0 } index :=
      ⟨h.same, h.length, h.trailed, h.heard, h.settled⟩
    exact htagged.fail _
  · rename_i phase bytes hwritten
    have hplace := written_place hwritten
    have hwords : ∀ set what tolerate, some sent = some (ImapCommand.uidStore set what tolerate) →
        what.toList.any isLineBreak = false := by
      rintro set what tolerate ⟨⟩
      exact written_unbroken hwritten
    refine ⟨⟨h.same, h.trailed_more hfits rfl hwords, ?_, ?_, ?_⟩, ?_, ?_⟩
    · intro i hi
      have hphase : phase.place = some i := hi
      rw [hplace, Option.some.injEq] at hphase
      simp [h.length, hphase]
    · intro hnone
      have hphase : phase.place = none := hnone
      rw [hplace] at hphase
      cases hphase
    · intro _ d hd
      rcases List.mem_append.mp hd with hd | hd
      · exact h.heard d hd
      · rw [List.mem_singleton.mp hd]
        exact .refl _
    · intro _ hover
      exact absurd hover (place_live hplace)
    · intro out hout
      cases hout

theorem issueFrom_lands {rest : List ImapCommand} (h : Ready commands session index)
    (hrest : commands.drop index = rest) : Lands commands (session.issueFrom index rest) := by
  induction rest generalizing session index with
  | nil =>
    have hlast : commands.length ≤ session.trail.length := by
      rw [h.length]
      exact List.drop_eq_nil_iff.mp hrest
    have hfirst : session.trail.length ≤ commands.length := by
      by_contra hlt
      have hin : commands.length < session.trail.length := by omega
      rcases h.trailed.fits _ _ (List.getElem?_eq_getElem hin) with ⟨command, hcommand, _⟩
      simp at hcommand
    refine ⟨.of_finished h.same h.trailed rfl, ?_, ?_⟩
    · intro hneed
      cases hneed
    · intro out hout
      cases hout
      exact ⟨rfl, le_antisymm hfirst hlast, h.heard, h.settled⟩
  | cons command rest ih =>
    rcases drop_cons hrest with ⟨hcommand, hrest⟩
    unfold issueFrom
    split
    · rename_i hpass
      rw [h.same] at hpass
      exact ih (h.pass ⟨command, hcommand, .inl ⟨hpass, rfl⟩⟩) hrest
    · exact h.fail _
    · rename_i sent hsend
      rw [h.same] at hsend
      exact send_lands h ⟨command, hcommand, .inr ⟨sent, hsend, rfl⟩⟩

theorem issue_lands (h : Ready commands session index) : Lands commands (session.issue index) := by
  unfold issue
  rw [h.same]
  exact issueFrom_lands h rfl

theorem greeted_lands (h : Ready commands session 0) (preauth : Bool) :
    Lands commands (session.greeted preauth) := by
  unfold greeted
  split
  · exact issue_lands h
  · split
    · exact h.fail _
    · exact h.ask _ (fun _ => rfl) (by simp)

end Machine

/-! ## Hearing a response -/

/-- What one response comes to, where the session may read on. -/
structure Heeds (commands : List ImapCommand) (before : Session)
    (next : Session × Option (Progress Transcript)) : Prop where
  stays : next.2 = none → Stays before next.1
  lands : ∀ progress, next.2 = some progress → Lands commands (next.1, progress)

theorem Heeds.of_lands (h : Lands commands next) :
    Heeds commands before (next.1, some next.2) where
  stays hnone := by cases hnone
  lands progress hprogress := by
    cases hprogress
    exact h

theorem Heeds.of_stays {after : Session} (h : Stays before after) :
    Heeds commands before (after, none) where
  stays _ := h
  lands progress hprogress := by cases hprogress

theorem Heeds.after {mid : Session} {next : Session × Option (Progress Transcript)}
    (hbefore : Stays before mid) (h : Heeds commands mid next) : Heeds commands before next where
  stays hnone := hbefore.trans (h.stays hnone)
  lands := h.lands

theorem capabilities_grows (transcript : Transcript) (atoms : List (List Char)) :
    transcript.Grows { transcript with capabilities := atoms } :=
  ⟨List.prefix_refl _, List.prefix_refl _⟩

theorem keep_heeds (h : Tracks commands session) (untagged : Untagged) :
    Heeds commands session (session.keep untagged) := by
  unfold keep
  dsimp only
  split
  · have htracks : Tracks commands { session with
        held := session.held + (untagged.raw.length + (Utf8.encode untagged.text).length) } :=
      ⟨h.same, h.trailed, h.waits, h.fresh, h.heard⟩
    exact .of_lands (htracks.fail _)
  · exact .of_stays ⟨rfl, rfl, rfl, .rfl, List.prefix_append _ _, List.prefix_refl _⟩

theorem absorbUntagged_heeds [TextTables] (h : Stands commands session) (raw : Bytes)
    (text : List Char) :
    Heeds commands session (session.absorbUntagged raw text) := by
  unfold absorbUntagged
  split
  · exact .of_stays (.refl _)
  · have hkept := keep_heeds h.tracks ⟨session.phase.during, text, raw⟩
    dsimp only
    split
    · rename_i failed hfailed
      exact .of_lands (hkept.lands failed hfailed)
    · rename_i hnone
      have hstays := hkept.stays hnone
      split
      · rename_i index tag hidling
        split
        · have hplace : session.phase.place = some index := by
            rw [← hstays.place, hidling]
            rfl
          have hends : Stays session
              { (session.keep ⟨session.phase.during, text, raw⟩).1 with
                phase := .idleEnding index tag } := by
            refine ⟨hstays.commands, hstays.trail, hplace.symm, ?_, hstays.grows⟩
            constructor
            · intro hover
              cases hover
            · intro hover
              exact absurd hover (place_live hplace)
          exact .of_lands ((hends.stands h).need _)
        · exact .of_stays hstays
      · exact .of_stays hstays

theorem switching_lands (h : Lands commands next) : Lands commands (switching next) := by
  unfold switching
  split
  · rename_i needs hneed
    have hwaits : next.2.isNeed = true := by
      rw [hneed]
      rfl
    have hstays : Stays next.1 { next.1 with compressing := true } :=
      ⟨rfl, rfl, rfl, .rfl, .refl _⟩
    exact (hstays.stands (h.stands hwaits)).need _
  · rename_i out hout
    rcases h.done out hout with ⟨hover, hcomplete⟩
    have hstands : Stands commands { next.1 with transcript := out, compressing := true } :=
      ⟨.of_finished h.tracks.same h.tracks.trailed hover, fun _ => hcomplete⟩
    exact hstands.need _
  · rename_i error herror
    refine ⟨h.tracks, ?_, ?_⟩
    · intro hneed
      cases hneed
    · intro out hout
      cases hout

theorem heard_ok {after : Session} (h : Tracks commands session)
    (hplace : session.phase.place = some index) (text : List Char)
    (hsame : after.commands = session.commands) (htrail : after.trail = session.trail)
    (htranscript : after.transcript = { session.transcript with
      completed := session.transcript.completed ++ [Completed.mk index text] }) :
    Ready commands after (index + 1) := by
  refine h.ready hplace hsame htrail ?_ (.inl ⟨text, ?_⟩)
  · rw [htranscript]
    exact ⟨List.prefix_refl _, List.prefix_append _ _⟩
  · simp [htranscript]

/-- A phase a tagged reply can answer. -/
theorem place_of_index (hstart : ∀ tag, phase ≠ .startingTls tag)
    (hrecap : ∀ tag, phase ≠ .recapping tag) (hleave : ∀ tag, phase ≠ .deselecting tag)
    (htag : phase.tag ≠ "") : phase.place = some phase.index := by
  cases phase with
  | greeting => exact absurd rfl htag
  | startingTls tag => exact absurd rfl (hstart tag)
  | awaitingTls => exact absurd rfl htag
  | recapping tag => exact absurd rfl (hrecap tag)
  | deselecting tag => exact absurd rfl (hleave tag)
  | finished => exact absurd rfl htag
  | _ => rfl

theorem handOver_lands (h : Lands commands next) : Lands commands (handOver next) := by
  unfold handOver
  split
  · split
    · rename_i leftover needs hneed
      have hwaits : next.2.isNeed = true := by
        rw [hneed]
        rfl
      have hstays : Stays next.1 { next.1 with compressing := false, buf := [] } :=
        ⟨rfl, rfl, rfl, .rfl, .refl _⟩
      exact (hstays.stands (h.stands hwaits)).need _
    · exact ⟨⟨h.tracks.same, h.tracks.trailed, h.tracks.waits, h.tracks.fresh, h.tracks.heard⟩,
        h.rests, h.done⟩
  · exact h

theorem readMore_lands (h : Stands commands session) : Lands commands session.readMore := by
  unfold readMore
  split
  · exact h.tracks.fail _
  · exact h.need _

theorem buf_stays (session : Session) (buf : Bytes) : Stays session { session with buf } :=
  ⟨rfl, rfl, rfl, .rfl, .refl _⟩

/-- A phase of the same command. -/
theorem phase_stays (hbefore : session.phase.place = some index) (hafter : phase.place = some index)
    :
    Stays session { session with phase } where
  commands := rfl
  trail := rfl
  place := hafter.trans hbefore.symm
  «over» := by
    constructor
    · intro hover
      exact absurd hover (place_live hafter)
    · intro hover
      exact absurd hover (place_live hbefore)
  grows := .refl _

theorem continued_heeds (h : Stands commands session) :
    Heeds commands session session.continued := by
  unfold continued
  split
  · rename_i index tag hphase
    have hplace : session.phase.place = some index := by rw [hphase]; rfl
    have hstays : Stays session { session with phase := .idling index tag } :=
      phase_stays hplace rfl
    split
    · exact .of_lands ((hstays.stands h).need _)
    · exact .of_stays hstays
  · rename_i index tag body hphase
    have hplace : session.phase.place = some index := by rw [hphase]; rfl
    have hstays : Stays session { session with phase := .running index tag } :=
      phase_stays hplace rfl
    exact .of_lands ((hstays.stands h).need _)
  · rename_i index tag part rest hphase
    have hplace : session.phase.place = some index := by rw [hphase]; rfl
    cases rest with
    | nil =>
      have hstays : Stays session { session with phase := .running index tag } :=
        phase_stays hplace rfl
      exact .of_lands ((hstays.stands h).need _)
    | cons next rest =>
      have hstays : Stays session { session with phase := .literalPending index tag next rest } :=
        phase_stays hplace rfl
      exact .of_lands ((hstays.stands h).need _)
  · exact .of_lands (h.tracks.fail _)

/-- What came after the agreement to upgrade is refused; else the event is answered. -/
theorem secured_heeds {next : Session × Option (Progress Transcript)}
    (hbefore : Tracks commands before) (h : Heeds commands before next) :
    Heeds commands before (secured next) := by
  unfold secured
  split
  · have htracks : Tracks commands next.1 := by
      cases hnext : next.2 with
      | none => exact (h.stays hnext).tracks hbefore
      | some progress => exact (h.lands progress hnext).tracks
    exact .of_lands (htracks.fail _)
  · split
    · rename_i progress hprogress
      exact .of_lands (handOver_lands (h.lands progress hprogress))
    · exact h

section Machine

variable [TextTables] [ImapDates] [ResponseParser]

variable {commands : List ImapCommand} {session : Session}

theorem completed_lands (h : Tracks commands session) (hplace : session.phase.place = some index)
    (text : List Char) :
    Lands commands (session.completed index text) := by
  unfold completed
  dsimp only
  split
  · apply Ready.fail
    exact heard_ok h hplace text rfl rfl rfl
  · split
    · apply switching_lands
      apply issue_lands
      exact heard_ok h hplace text rfl rfl rfl
    · apply issue_lands
      exact heard_ok h hplace text rfl rfl rfl

theorem absorbDone_lands (h : Tracks commands session) {tag : List Char} (htag : tag ≠ [])
    (status : Status) (text : List Char) : Lands commands (session.absorbDone tag status text) := by
  unfold absorbDone
  dsimp only
  split
  · exact h.fail _
  · rename_i hsame
    rw [ne_eq, not_not] at hsame
    split
    · rename_i hphase
      have hplace : session.phase.place = none := by rw [hphase]; rfl
      have hlive : session.phase ≠ .finished := by rw [hphase]; simp
      split
      · split
        · exact h.fail _
        · have hawaits : Stands commands { session with phase := .awaitingTls } := by
            refine ⟨⟨h.same, h.trailed, ?_, ?_, ?_⟩, ?_⟩
            · intro index hindex
              cases hindex
            · intro _ _
              exact h.fresh hplace hlive
            · intro _
              exact h.heard hlive
            · intro hover
              cases hover
          exact hawaits.need _
      · exact h.fail _
    · rename_i hphase
      have hplace : session.phase.place = none := by rw [hphase]; rfl
      have hlive : session.phase ≠ .finished := by rw [hphase]; simp
      split
      · exact issue_lands (h.ready_first hplace hlive rfl rfl)
      · exact h.fail _
    · rename_i hphase
      have hplace : session.phase.place = none := by rw [hphase]; rfl
      have hlive : session.phase ≠ .finished := by rw [hphase]; simp
      split
      · exact issue_lands (h.ready_first hplace hlive rfl rfl)
      · exact h.fail _
    · rename_i hstart hrecap hleave
      have hspoken : session.phase.tag ≠ "" := by
        rw [← hsame]
        intro hnil
        exact htag (String.ofList_injective hnil)
      have hplace := place_of_index hstart hrecap hleave hspoken
      split
      · exact completed_lands h hplace text
      · split
        · rename_i htolerated
          refine issue_lands (h.ready hplace rfl rfl (.refl _) (.inr ?_))
          rw [← h.same]
          exact htolerated
        · split
          · exact h.fail _
          · exact h.fail _

theorem absorb_heeds (h : Stands commands session) {response : Response}
    (htag : ∀ tag status atoms, response = .done tag status atoms → tag ≠ []) (raw : Bytes) :
    Heeds commands session (session.absorb response raw) := by
  unfold absorb
  generalize Text.trimEnd (Utf8.decodeLossy raw) = text
  have hlearned : ∀ atoms, Stays session { session with
      transcript := { session.transcript with capabilities := atoms } } :=
    fun atoms => ⟨rfl, rfl, rfl, .rfl, capabilities_grows _ _⟩
  cases response with
  | done tag status atoms =>
    dsimp only
    split
    · exact .of_lands (absorbDone_lands ((hlearned _).tracks h.tracks) (htag _ _ _ rfl) _ _)
    · exact .of_lands (absorbDone_lands h.tracks (htag _ _ _ rfl) _ _)
  | _ =>
    dsimp only
    split
    · exact .after (hlearned _) (absorbUntagged_heeds ((hlearned _).stands h) _ _)
    · exact absorbUntagged_heeds h _ _

theorem drainOne_heeds (h : Stands commands session) : Heeds commands session session.drainOne := by
  unfold drainOne
  split
  · split
    · exact .of_lands (readMore_lands h)
    · exact .after (buf_stays _ _) (continued_heeds ((buf_stays _ _).stands h))
  · split
    · exact .of_lands (h.need _)
    · split
      · split
        · exact .of_lands (readMore_lands h)
        · split
          · exact .of_stays (buf_stays _ _)
          · exact .after (buf_stays _ _) (keep_heeds ((buf_stays _ _).tracks h.tracks) _)
      · split
        · rename_i used response hparse
          apply secured_heeds h.tracks
          have htag : ∀ tag status atoms, response = .done tag status atoms → tag ≠ [] := by
            rintro tag status atoms rfl
            exact ResponseParser.tag_some hparse
          have habsorbed := absorb_heeds ((buf_stays session []).stands h) htag
            (session.buf.take used)
          constructor
          · intro hnone
            exact ((buf_stays _ _).trans (habsorbed.stays hnone)).trans (buf_stays _ _)
          · intro progress hprogress
            have hlands := habsorbed.lands progress hprogress
            exact ⟨⟨hlands.tracks.same, hlands.tracks.trailed, hlands.tracks.waits,
              hlands.tracks.fresh, hlands.tracks.heard⟩, hlands.rests, hlands.done⟩
        · exact .of_lands (readMore_lands h)
        · split
          · split
            · exact .of_lands (readMore_lands h)
            · apply secured_heeds h.tracks
              exact .of_stays ⟨rfl, rfl, rfl, .rfl, capabilities_grows _ _⟩
          · exact .of_lands (h.tracks.fail _)

theorem drainFrom_lands (fuel : Nat) (h : Stands commands session) :
    Lands commands (drainFrom fuel session) := by
  induction fuel generalizing session with
  | zero => exact h.need _
  | succ fuel ih =>
    unfold drainFrom
    split
    · exact h.need _
    · have hheeds := drainOne_heeds h
      dsimp only
      split
      · rename_i progress hprogress
        exact hheeds.lands progress hprogress
      · rename_i hnone
        exact ih ((hheeds.stays hnone).stands h)

/-! ## One event -/

omit [ResponseParser] in
theorem start_lands (htrail : session.trail = []) (hphase : session.phase = .greeting) :
    Lands session.commands session.start := by
  have hready : Ready session.commands session 0 := by
    refine ⟨rfl, by rw [htrail]; rfl, by rw [htrail]; exact .nil _, ?_, ?_⟩
    · simp [htrail]
    · simp [htrail]
  have htracks : Tracks session.commands session :=
    .of_fresh htrail (by rw [hphase]; rfl)
  unfold start
  split
  · split
    · unfold deselect
      split
      · exact hready.ask _ (fun _ => rfl) (by simp)
      · exact htracks.fail _
    · exact issue_lands hready
  · refine (Stands.mk htracks ?_).need _
    rw [hphase]
    intro hover
    cases hover

theorem greet_lands (h : Stands commands session) (hphase : session.phase = .greeting) :
    Lands commands session.greet := by
  unfold greet
  split
  · apply greeted_lands
    apply h.tracks.ready_first
    · rw [hphase]
      rfl
    · rw [hphase]
      simp
    · rfl
    · rfl
  · exact readMore_lands h
  · exact h.tracks.fail _

/-- An interrupt the session can act on, and every other event. -/
def Heedful (session : Session) (ready : IoReady) : Prop :=
  ready = .interrupt → ∃ index tag, session.phase = .idling index tag

theorem feed_lands (h : Stands commands session) {ready : IoReady}
    (hheedful : Heedful session ready) :
    Lands commands (session.feed ready) := by
  unfold feed
  split
  · exact h.tracks.fail _
  · split
    · rename_i hphase
      have hready : Ready commands
          { session with transcript := { session.transcript with capabilities := [] } } 0 :=
        h.tracks.ready_first (by rw [hphase]; rfl) (by rw [hphase]; simp) rfl rfl
      exact hready.ask _ (fun _ => rfl) (by simp)
    · exact h.need _
  · split
    · rename_i hphase
      refine ⟨.of_finished h.tracks.same h.tracks.trailed rfl, ?_, ?_⟩
      · intro hneed
        cases hneed
      · intro out hout
        cases hout
        exact ⟨rfl, h.rests hphase⟩
    · exact h.need _
  · rcases hheedful rfl with ⟨index, tag, hphase⟩
    rw [hphase]
    have hplace : session.phase.place = some index := by rw [hphase]; rfl
    have hstays : Stays session { session with phase := .idleEnding index tag } :=
      phase_stays hplace rfl
    exact (hstays.stands h).need _
  · rename_i fed
    have hstands := (buf_stays session (session.buf ++ fed)).stands h
    dsimp only
    split
    · rename_i hphase
      exact greet_lands hstands hphase
    · exact drainFrom_lands _ hstands

theorem feed_heedless {ready : IoReady} (h : ¬ Heedful session ready) :
    ready = .interrupt ∧ session.feed ready = session.finish := by
  unfold Heedful at h
  rw [Classical.not_imp] at h
  rcases h with ⟨rfl, hphase⟩
  refine ⟨rfl, ?_⟩
  unfold feed
  dsimp only
  split
  · rename_i index tag hidling
    exact absurd ⟨index, tag, hidling⟩ hphase
  · rfl

/-- Whatever happens, what was dealt with stays as the walk decided. -/
theorem feed_tracks (h : Stands commands session) (ready : IoReady) :
    Tracks commands (session.feed ready).1 := by
  by_cases hheedful : Heedful session ready
  · exact (feed_lands h hheedful).tracks
  · rw [(feed_heedless hheedful).2]
    exact .of_finished h.tracks.same h.tracks.trailed rfl

theorem feed_stands (h : Stands commands session) {ready : IoReady}
    (hneed : (session.feed ready).2.isNeed = true) : Stands commands (session.feed ready).1 := by
  by_cases hheedful : Heedful session ready
  · exact (feed_lands h hheedful).stands hneed
  · rw [(feed_heedless hheedful).2] at hneed
    cases hneed

end Machine

end Session

end Mailo.Proto.Imap
