import Mailo.Proto.Pop3.Pieces

/-!
# A session and the replies it is given

Every command has its reply, and the network brings each reply in pieces. Where no piece ends at
the bound of a line, the session does what it does with whole replies.
-/

namespace Mailo.Proto.Pop3

open Domain Library

def dids {σ α : Type} (talk : Talk σ α) : List Did := talk.turns.map Turn.did

def spoken (needs : List IoNeed) (did : List Did) : List Did :=
  if needs.any isWrite then .wrote (writes needs) :: did else did

def secured (needs : List IoNeed) (did : List Did) : List Did :=
  if needs.any isOpenTls then .secured :: did else did

theorem did_speak (needs : List IoNeed) (turns : List Turn) :
    (Talk.speak needs turns).map Turn.did = spoken needs (turns.map Turn.did) := by
  unfold Talk.speak spoken
  split <;> rfl

variable {turns : List Turn} {auth : Auth} {reply : Sent}

theorem did_hear (h : turns ≠ []) (heard : Bytes) :
    (Talk.hear heard turns).map Turn.did = turns.map Turn.did := by
  cases turns with
  | nil => exact absurd rfl h
  | cons turn turns => rfl

theorem speak_ne_nil (h : turns ≠ []) (needs : List IoNeed) :
    Talk.speak needs turns ≠ [] := by
  unfold Talk.speak
  split
  · exact List.cons_ne_nil _ _
  · exact h

theorem hear_ne_nil (turns : List Turn) (heard : Bytes) : Talk.hear heard turns ≠ [] := by
  cases turns <;> exact List.cons_ne_nil _ _

abbrev Talker := Talk Session (List Pop3Reply)

/-- What was done before, with one step after it. -/
structure After (auth : Auth) (did : List Did) (step : Step) (talk : Talker) : Prop where
  progress : talk.progress = step.2
  did : dids talk = spoken step.2.needs did
  state : step.2.isNeed = true → talk.state = ⟨auth, step.1⟩
  begun : talk.turns ≠ []

/-- One event is one step of the session. -/
theorem after_next {auth : Auth} {state : State} {needs : List IoNeed} {talk : Talker}
    (hstate : talk.state = ⟨auth, state⟩) (hprogress : talk.progress = .need needs)
    (hbegun : talk.turns ≠ []) (ready : IoReady) :
    After auth (if ready = .tlsOpen then secured needs (dids talk) else dids talk)
      (state.step auth ready) (talk.next Session.machine ready) := by
  have hfeed : Session.machine.feed talk.state ready =
      (⟨auth, (state.step auth ready).1⟩, (state.step auth ready).2) := by
    rw [hstate]
    rfl
  have hsecure : (Talk.secure needs ready talk.turns).map Turn.did =
      if ready = .tlsOpen then secured needs (dids talk) else dids talk := by
    unfold Talk.secure secured dids
    by_cases htls : ready = .tlsOpen
    · by_cases hopen : needs.any isOpenTls
      · simp [htls, hopen]
      · simp [htls, hopen]
    · simp [htls]
  rw [Talk.next_need hprogress hfeed]
  refine ⟨rfl, ?_, fun _ => rfl, speak_ne_nil (hear_ne_nil _ _) _⟩
  rw [dids, did_speak, did_hear (Talk.secure_ne_nil hbegun _ _), hsecure]

variable {talk : Talker} {pieces : List Bytes}

theorem run_over (h : talk.progress.isNeed = false) (events : List IoReady) :
    talk.run Session.machine events = talk := by
  induction events with
  | nil => rfl
  | cons event events ih =>
    rw [Talk.run, List.foldl_cons, Talk.next_over h]
    exact ih

theorem run_append (talk : Talker) (a b : List IoReady) :
    talk.run Session.machine (a ++ b) =
      (talk.run Session.machine a).run Session.machine b :=
  List.foldl_append

theorem flatten_eq_nil (hsome : ∀ piece ∈ pieces, piece ≠ []) (h : pieces.flatten = []) :
    pieces = [] := by
  cases pieces with
  | nil => rfl
  | cons piece pieces =>
    exact absurd (List.append_eq_nil_iff.mp h).1 (hsome piece (.head _))

/-- The pieces of a reply, one after another, are one step of the session: the one the whole reply
is. -/
theorem run_pieces (hpieces : pieces ≠ []) (hsome : ∀ piece ∈ pieces, piece ≠ []) {state : State}
    {needs : List IoNeed} {lines : List Bytes} (hstate : talk.state = ⟨auth, state⟩)
    (hprogress : talk.progress = .need needs) (hbegun : talk.turns ≠ [])
    (hbytes : state.buf ++ pieces.flatten = joinLines lines) (hfits : ∀ line ∈ lines, Fits line)
    (hopen : state.phase ≠ .closed) (hawaits : Awaits state.phase lines)
    (hclear : ∀ front back, pieces = front ++ back → Clear (state.buf ++ front.flatten) lines) :
    After auth (dids talk) (state.readLines auth lines)
      (talk.run Session.machine (pieces.map IoReady.bytes)) := by
  induction pieces generalizing state talk needs lines with
  | nil => exact absurd rfl hpieces
  | cons piece pieces ih =>
    obtain ⟨_, hrest⟩ := List.forall_mem_cons.mp hsome
    have hnext := after_next hstate hprogress hbegun (.bytes piece)
    rw [if_neg (by simp)] at hnext
    have hstep : state.step auth (.bytes piece) =
        State.pumpLines auth ((state.buf ++ piece).length + 1)
          { state with buf := state.buf ++ piece } := by
      change State.pump { state with buf := state.buf ++ piece } auth = _
      rw [State.pump, if_neg hopen]
    have hfirst : Clear (state.buf ++ piece) lines := by
      have h := hclear [piece] pieces rfl
      rwa [List.flatten_singleton] at h
    have harrived := @pumpLines_arrived auth ((state.buf ++ piece).length + 1)
      { state with buf := state.buf ++ piece } lines pieces.flatten (Nat.lt_succ_self _)
      (by rw [← hbytes, List.flatten_cons, List.append_assoc]) hfits hopen hawaits hfirst
    rw [← hstep] at harrived
    change After auth _ _ (Talk.run Session.machine (talk.next Session.machine (.bytes piece))
      (pieces.map IoReady.bytes))
    generalize state.step auth (.bytes piece) = step at hnext harrived
    generalize talk.next Session.machine (.bytes piece) = talk' at hnext
    cases harrived with
    | waits gone left buf phase hlines hgone hleft hopen' hawaits' hlater hread =>
      have hmore : pieces ≠ [] := by
        rintro rfl
        exact hlater rfl
      have hgo := ih hmore hrest (hnext.state rfl) hnext.progress hnext.begun hleft
        (fun line h => hfits line (hlines ▸ List.mem_append_right _ h)) hopen' hawaits' (by
          intro front back hpieces before long after hsplit hlong hcut
          refine hclear (piece :: front) back (by rw [hpieces, List.cons_append])
            (gone ++ before) long after (by rw [hlines, hsplit, List.append_assoc]) hlong ?_
          change state.buf ++ piece = _ at hgone
          rw [List.flatten_cons, ← List.append_assoc, hgone, List.append_assoc, hcut]
          simp [joinLines])
      have hdid : dids talk' = dids talk := hnext.did
      have hsame : ({ state with buf := buf, phase := phase } : State).readLines auth left =
          state.readLines auth lines := by
        unfold State.readLines
        rw [hread]
      rw [hdid, hsame] at hgo
      exact hgo
    | ends hlater hstep =>
      rw [flatten_eq_nil hrest hlater]
      have hsame : ({ state with buf := state.buf ++ piece } : State).readLines auth lines =
          state.readLines auth lines := rfl
      rw [hstep, hsame] at hnext
      exact hnext
    | @fails after error hfails =>
      have hsame : (state.readLines auth lines).2 = .failed error := hfails
      have hover : talk'.progress.isNeed = false := by
        rw [hnext.progress]
        rfl
      rw [run_over hover]
      refine ⟨hnext.progress.trans hsame.symm, ?_, ?_, hnext.begun⟩
      · rw [hnext.did, hsame]
      · rw [hsame]
        exact fun h => by cases h

/-! ## A script of replies -/

/-- What a session does with whole replies; `none` where the connection is secured. -/
def serve (auth : Auth) : Step → List Did → List (Option Sent) → List Did × Progress (List Pop3Reply)
  | (_, .need needs), did, [] => (did, .need needs)
  | (state, .need _), did, some reply :: script =>
    serve auth (state.readLines auth reply.wired)
      (spoken (state.readLines auth reply.wired).2.needs did) script
  | (state, .need needs), did, none :: script =>
    serve auth (state.step auth .tlsOpen)
      (spoken (state.step auth .tlsOpen).2.needs (secured needs did)) script
  | (_, .done out), did, _ => (did, .done out)
  | (_, .failed error), did, _ => (did, .failed error)

/-- Events that bring a script, each reply in pieces of the kind `how` says. -/
inductive Delivers (how : Sent → List Bytes → Prop) : List (Option Sent) → List IoReady → Prop
  | none : Delivers how [] []
  | secured {script : List (Option Sent)} {events : List IoReady} (rest : Delivers how script events) :
      Delivers how (none :: script) (.tlsOpen :: events)
  | reply {reply : Sent} {pieces : List Bytes} {script : List (Option Sent)}
      {events : List IoReady} (cut : how reply pieces) (rest : Delivers how script events) :
      Delivers how (some reply :: script) (pieces.map IoReady.bytes ++ events)

/-- Each reply of a script is the one the session waits for. -/
def Suits (auth : Auth) : State → List (Option Sent) → Prop
  | _, [] => True
  | state, some reply :: script =>
    state.buf = [] ∧ state.phase ≠ .closed ∧ Awaits state.phase reply.wired ∧
      ∀ after needs, state.readLines auth reply.wired = (after, .need needs) →
        Suits auth after script
  | state, none :: script =>
    ∀ after needs, state.step auth .tlsOpen = (after, .need needs) → Suits auth after script

def CutClear (reply : Sent) (pieces : List Bytes) : Prop :=
  Cut reply pieces ∧ ¬ CutAtBound reply.wired pieces

theorem Sent.bytes_ne_nil (reply : Sent) : reply.bytes ≠ [] := by
  intro h
  cases reply with
  | line | lines => simp [Sent.bytes, Sent.wired, joinLines] at h

theorem CutClear.clear {front back : List Bytes} (h : CutClear reply pieces)
    (hpieces : pieces = front ++ back) : Clear front.flatten reply.wired := by
  intro before line after hlines hlong hcut
  exact h.2 ⟨before, line, after, front, back, hlines, hlong, hpieces, hcut⟩

theorem Cut.ne_nil (h : Cut reply pieces) : pieces ≠ [] := by
  rintro rfl
  exact reply.bytes_ne_nil h.whole.symm

/-- However the replies of a script are cut, the session does what it does with whole ones. -/
theorem run_delivers {script : List (Option Sent)} {events : List IoReady}
    (h : Delivers CutClear script events)
    (hfits : ∀ reply, some reply ∈ script → ∀ line ∈ reply.wired, Fits line) {step : Step}
    {did : List Did} (hafter : After auth did step talk)
    (hsuits : step.2.isNeed = true → Suits auth step.1 script) :
    (dids (talk.run Session.machine events), (talk.run Session.machine events).progress) =
      serve auth step (spoken step.2.needs did) script := by
  induction h generalizing step did talk with
  | none =>
    obtain ⟨state, progress⟩ := step
    have hdid : dids talk = _ := hafter.did
    have hprogress : talk.progress = progress := hafter.progress
    change (dids talk, talk.progress) = _
    rw [hdid, hprogress]
    cases progress <;> rfl
  | @secured script events rest ih =>
    obtain ⟨state, progress⟩ := step
    have hprogress : talk.progress = progress := hafter.progress
    cases progress with
    | need needs =>
      have hnext := after_next (hafter.state rfl) hprogress hafter.begun .tlsOpen
      rw [if_pos rfl, hafter.did] at hnext
      exact ih (fun reply hreply => hfits reply (.tail _ hreply)) hnext
        (fun hneed => by
          have hsuit := hsuits rfl
          cases hstep : state.step auth .tlsOpen with
          | mk after said =>
            rw [hstep] at hneed
            cases said with
            | need needs => exact hsuit after needs hstep
            | done out => cases hneed
            | failed error => cases hneed)
    | done | failed =>
      rw [run_over (by rw [hprogress]; rfl), hafter.did, hprogress]
      rfl
  | @reply reply pieces script events cut rest ih =>
    obtain ⟨state, progress⟩ := step
    have hprogress : talk.progress = progress := hafter.progress
    cases progress with
    | need needs =>
      obtain ⟨hbuf, hopen, hawaits, hgoes⟩ := hsuits rfl
      have hpieces := run_pieces cut.1.ne_nil cut.1.some (hafter.state rfl) hprogress
        hafter.begun (by rw [hbuf]; exact cut.1.whole)
        (hfits reply (.head _)) hopen hawaits
        (fun front back hsplit => by rw [hbuf]; exact cut.clear hsplit)
      rw [run_append]
      rw [hafter.did] at hpieces
      exact ih (fun reply hreply => hfits reply (.tail _ hreply)) hpieces
        (fun hneed => by
          cases hstep : state.readLines auth reply.wired with
          | mk after said =>
            rw [hstep] at hneed
            cases said with
            | need needs => exact hgoes after needs hstep
            | done out => cases hneed
            | failed error => cases hneed)
    | done | failed =>
      rw [run_over (by rw [hprogress]; rfl), hafter.did, hprogress]
      rfl

/-- Each reply in one piece. -/
def wholes (script : List (Option Sent)) : List IoReady :=
  script.map fun turn => match turn with
    | some reply => .bytes reply.bytes
    | none => .tlsOpen

theorem joinLines_append (a b : List Bytes) : joinLines (a ++ b) = joinLines a ++ joinLines b :=
  List.flatMap_append

theorem cutClear_whole (reply : Sent) : CutClear reply [reply.bytes] := by
  refine ⟨⟨List.flatten_singleton, fun piece h => List.mem_singleton.mp h ▸ reply.bytes_ne_nil⟩, ?_⟩
  rintro ⟨before, line, after, front, back, hlines, _, hpieces, hcut⟩
  cases front with
  | nil =>
    have hlength := congrArg List.length hcut
    simp at hlength
  | cons piece front =>
    obtain ⟨rfl, hrest⟩ := List.cons.inj hpieces
    have hfront : front = [] := (List.append_eq_nil_iff.mp hrest.symm).1
    rw [hfront, List.flatten_singleton, Sent.bytes, hlines, joinLines_append, joinLines_cons] at hcut
    have hlength := congrArg List.length hcut
    simp only [List.length_append, List.length_cons, List.length_nil] at hlength
    omega

theorem delivers_wholes (script : List (Option Sent)) : Delivers CutClear script (wholes script) := by
  induction script with
  | nil => exact .none
  | cons turn script ih =>
    cases turn with
    | none => exact .secured ih
    | some reply => exact .reply (cutClear_whole reply) ih

end Mailo.Proto.Pop3
