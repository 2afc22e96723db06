import Mailo.Engine.Sync.DeltaWalk

/-!
# Passes over one folder's delta

What a stored link stands for is what is held, through every history of the folder, every pass cut
short and every link that expires, as long as no pass removes what its walk put back.
-/

namespace Mailo.Engine.Graph

open Domain Library Runtime.Graph

variable {keyOf : String → MessageKey} {first : String} {copies : Prop}

/-- A pass that is kept removes no message its walk left in the folder, and a link that expires
leaves the walk another request. Where `copies` are to agree as well, so do the messages at several
addresses, and nothing else changes the flags of a message the folder has. -/
def Meets (keyOf : String → MessageKey) (copies : Prop) (world : World) : Event → Prop
  | .kept => Removed world.base world.log ∧ (copies → Agree keyOf world.base world.log)
  | .expired => ∀ perPass walk, world.phase = .walking perPass walk →
      walk.requests + 1 < maxRequests
  | .beside _ messages => copies → ∀ id key, world.rows.remotes.get id = some key →
      messages.get key = world.rows.messages.get key
  | _ => True

/-- The worlds reached by steps that meet it. -/
inductive Run (keyOf : String → MessageKey) (first : String) (copies : Prop) :
    World → World → Prop where
  | nil (world : World) : Run keyOf first copies world world
  | step (before world after : World) (event : Event) (run : Run keyOf first copies before world)
      (step : Step keyOf first world event after) (meets : Meets keyOf copies world event) :
      Run keyOf first copies before after

/-- The same addresses are held as a folder has, and with `copies` the same flags. -/
structure Stands (copies : Prop) (held told : Folder) : Prop where
  same : ∀ id, (held id).isSome = (told id).isSome
  flags : copies → held = told

namespace Stands

variable {held told other : Folder}

theorem refl (held : Folder) : Stands copies held held := ⟨fun _ => rfl, fun _ => rfl⟩

theorem trans (h : Stands copies held told) (h' : Stands copies told other) :
    Stands copies held other :=
  ⟨fun id => (h.same id).trans (h'.same id), fun c => (h.flags c).trans (h'.flags c)⟩

theorem tellAll (h : Stands copies held told) (log : List Entry) :
    Stands copies (Said.tellAll held log) (Said.tellAll told log) :=
  ⟨Said.tellAll_isSome log h.same, fun c => by rw [h.flags c]⟩

end Stands

/-- What a walk under way says, read up to one link. -/
structure Follows (copies : Prop) (world : World) (walk : Walk) (link : String) : Prop where
  gathered : Gathered world.log walk
  began : Stands copies (opened world.rows walk).held world.base
  told : ∃ came, world.server.told link = some came ∧
    Stands copies (Said.tellAll world.base world.log) came

/-- What a pass has read, in each phase. -/
def Under (copies : Prop) (world : World) : Prop :=
  match world.phase with
  | .idle => True
  | .walking _ walk => Follows copies world walk walk.url
  | .ended walk => ∃ link, walk.cursor = some link ∧ Follows copies world walk link

/-- Every address is of its message, and the link stored stands for what is held. -/
structure Sound (keyOf : String → MessageKey) (first : String) (copies : Prop) (world : World) :
    Prop where
  addressed : world.rows.Addressed keyOf
  begins : world.server.told first = some fun _ => none
  stored : ∃ told, world.server.told (world.rows.cursor.getD first) = some told ∧
    Stands copies world.rows.held told
  ends : ∀ link folder, world.server.ended link = some folder →
    world.server.told link = some folder
  under : Under copies world

/-! ## One step -/

variable {link : String} {page : Page} {server : Server} {walk : Walk} {world : World} {rows : Rows}

variable {folder : Folder} {server' : Server} {url : String} {after : World}

theorem answers_told (answers : server.Answers url page server')
    (h : server.told link = some folder) :
    server'.told link = some folder := by
  cases answers with
  | last told other followed ends current new =>
    show Function.update server.told other _ link = _
    rw [Function.update_apply]
    split
    · rename_i heq
      rw [new folder (heq ▸ h)]
    · exact h
  | next told other followed goes onward new =>
    show Function.update server.told other _ link = _
    rw [Function.update_apply]
    split
    · rename_i heq
      rw [new folder (heq ▸ h)]
    · exact h

theorem answers_ended (answers : server.Answers url page server')
    (ends : ∀ link folder, server.ended link = some folder → server.told link = some folder)
    (h : server'.ended link = some folder) :
    server'.told link = some folder := by
  cases answers with
  | last told other followed hends current new =>
    change Function.update server.ended other _ link = _ at h
    show Function.update server.told other _ link = _
    rw [Function.update_apply] at h ⊢
    split at h
    · rename_i heq
      rw [if_pos heq]
      exact h
    · rename_i hne
      rw [if_neg hne]
      exact ends link folder h
  | next told other followed goes onward new =>
    exact answers_told (.next told other followed goes onward new) (ends link folder h)

theorem next_eq (walk : Walk) : ∃ requests,
    walk.next = .on { walk with requests := requests } ∧ walk.requests + 1 < maxRequests ∨
      walk.next = .ended { walk with requests := requests } ∧ ¬walk.requests + 1 < maxRequests := by
  refine ⟨walk.requests + 1, ?_⟩
  by_cases h : walk.requests + 1 < maxRequests
  · exact .inl ⟨if_pos h, h⟩
  · exact .inr ⟨if_neg h, h⟩

/-- A page that names another leaves the walk at that link, whether or not the pass goes on. -/
theorem page_next (walk : Walk) (perPass : Nat) (goes : page.deltaLink = none)
    (onward : page.nextLink = some link) :
    ∃ requests, let kept : Walk :=
        { page.value.foldl Walk.entry walk with
          url := link
          cursor := some link
          requests := requests }
      walk.page perPass page = .on kept ∨ walk.page perPass page = .ended kept := by
  simp only [Walk.page, goes, onward]
  split
  · exact ⟨_, .inr rfl⟩
  · obtain ⟨requests, ⟨heq, _⟩ | ⟨heq, _⟩⟩ := next_eq { page.value.foldl Walk.entry walk with
      url := link
      cursor := some link }
    · exact ⟨requests, .inl heq⟩
    · exact ⟨requests, .inr heq⟩

theorem gathered_page {log : List Entry} (gathered : Gathered log walk) (value : List Entry) :
    Gathered (log ++ value) (value.foldl Walk.entry walk) := by
  rw [entries_eq]
  refine ⟨?_, ?_, ?_⟩
  · rw [Said.puts_append, ← gathered.flags]
  · rw [Said.drops_append, ← gathered.gone]
  · rw [Said.puts_append, List.map_append, ← gathered.described]

theorem follows_page (perPass : Nat) (follows : Follows copies world walk walk.url)
    (answers : world.server.Answers walk.url page server) :
    Under copies { world with
      server := server
      phase := phaseOf perPass (walk.page perPass page)
      log := world.log ++ page.value } := by
  have hgathered := gathered_page follows.gathered page.value
  have hbegan : Stands copies (opened world.rows (page.value.foldl Walk.entry walk)).held
      world.base := by
    rw [entries_eq]
    exact follows.began
  obtain ⟨came, hcame, hstands⟩ := follows.told
  have htold : Stands copies (Said.tellAll world.base (world.log ++ page.value))
      (Said.tellAll came page.value) := by
    rw [Said.tellAll_append]
    exact hstands.tellAll page.value
  cases answers with
  | last _ link followed ends current new =>
    rw [hcame] at followed
    cases followed
    have hpage : walk.page perPass page =
        .ended { page.value.foldl Walk.entry walk with cursor := some link } := by
      simp only [Walk.page, ends]
    rw [hpage]
    exact ⟨link, rfl, ⟨hgathered.flags, hgathered.gone, hgathered.described⟩, hbegan,
      world.server.folder, Function.update_self .., current ▸ htold⟩
  | next _ link followed goes onward new =>
    rw [hcame] at followed
    cases followed
    obtain ⟨requests, heq | heq⟩ := page_next walk perPass goes onward
    · rw [heq]
      exact ⟨⟨hgathered.flags, hgathered.gone, hgathered.described⟩, hbegan,
        _, Function.update_self .., htold⟩
    · rw [heq]
      exact ⟨link, rfl, ⟨hgathered.flags, hgathered.gone, hgathered.described⟩, hbegan,
        _, Function.update_self .., htold⟩

theorem follows_expired (perPass : Nat) (begins : world.server.told first = some fun _ => none)
    (spare : walk.requests + 1 < maxRequests) :
    Under copies { world with
      phase := phaseOf perPass (walk.expired first)
      base := fun _ => none
      log := [] } := by
  unfold Walk.expired
  split
  · obtain ⟨requests, ⟨heq, _⟩ | ⟨heq, hnot⟩⟩ := next_eq { walk with
      url := first
      resumed := false
      validity := .reset
      seen := 0
      flags := []
      gone := []
      described := [] }
    · rw [heq]
      exact ⟨⟨rfl, rfl, rfl⟩, .refl _, _, begins, .refl _⟩
    · exact absurd spare hnot
  · trivial

theorem opened_stands {rows' : Rows} (h : Stands copies rows'.held rows.held) (walk : Walk) :
    Stands copies (opened rows' walk).held (opened rows walk).held := by
  unfold opened
  split
  · exact .refl _
  · exact h

theorem under_rows (under : Under copies world) (h : Stands copies rows.held world.rows.held) :
    Under copies { world with rows := rows } := by
  obtain ⟨server, held, phase, base, log⟩ := world
  cases phase with
  | idle => trivial
  | walking perPass walk =>
    exact ⟨under.gathered, (opened_stands h walk).trans under.began, under.told⟩
  | ended walk =>
    obtain ⟨link, hlink, follows⟩ := under
    exact ⟨link, hlink, follows.gathered, (opened_stands h walk).trans follows.began,
      follows.told⟩

/-- What the links stand for does not change as the folder does. -/
theorem under_change (under : Under copies world) (folder : Folder) :
    Under copies { world with server := { world.server with folder := folder } } := by
  obtain ⟨server, rows, phase, base, log⟩ := world
  cases phase with
  | idle => trivial
  | walking perPass walk => exact ⟨under.gathered, under.began, under.told⟩
  | ended walk =>
    obtain ⟨link, hlink, follows⟩ := under
    exact ⟨link, hlink, follows.gathered, follows.began, follows.told⟩

theorem beside_stands (elsewhere : List MessageKey) {messages : Table MessageKey Flags}
    (addressed : rows.Addressed keyOf)
    (stay : ∀ id key, rows.remotes.get id = some key → ∃ flags, messages.get key = some flags)
    (same : copies → ∀ id key, rows.remotes.get id = some key →
      messages.get key = rows.messages.get key) :
    Stands copies
      ({ rows with elsewhere := elsewhere, messages := messages } : Rows).held rows.held := by
  refine ⟨fun id => ?_, fun c => funext fun id => ?_⟩
  · show ((rows.remotes.get id).bind messages.get).isSome = _
    rw [Rows.held_isSome addressed]
    cases hget : rows.remotes.get id with
    | none => rfl
    | some key =>
      obtain ⟨flags, hflags⟩ := stay id key hget
      show (messages.get key).isSome = _
      rw [hflags]
      rfl
  · show (rows.remotes.get id).bind messages.get = (rows.remotes.get id).bind rows.messages.get
    cases hget : rows.remotes.get id with
    | none => rfl
    | some key => exact same c id key hget

theorem kept_stands (addressed : world.rows.Addressed keyOf)
    (follows : Follows copies world walk link) (removed : Removed world.base world.log)
    (agree : copies → Agree keyOf world.base world.log) :
    Stands copies (world.rows.keep keyOf walk).held (Said.tellAll world.base world.log) :=
  ⟨(keep_exact addressed follows.gathered follows.began.same).mpr removed,
    fun c => keep_held addressed follows.gathered (follows.began.flags c) removed (agree c)⟩

theorem sound_step {event : Event} (step : Step keyOf first world event after)
    (meets : Meets keyOf copies world event) (sound : Sound keyOf first copies world) :
    Sound keyOf first copies after := by
  cases step with
  | change folder =>
    exact ⟨sound.addressed, sound.begins, sound.stored, sound.ends,
      under_change sound.under folder⟩
  | start budget idle =>
    refine ⟨sound.addressed, sound.begins, sound.stored, sound.ends, ?_⟩
    exact ⟨⟨rfl, rfl, rfl⟩, .refl _, sound.stored⟩
  | page server perPass walk page walking answers =>
    have hunder := sound.under
    simp only [Under, walking] at hunder
    obtain ⟨told, htold, hstands⟩ := sound.stored
    exact ⟨sound.addressed, answers_told answers sound.begins,
      ⟨told, answers_told answers htold, hstands⟩,
      fun link folder h => answers_ended answers sound.ends h,
      follows_page perPass hunder answers⟩
  | expired perPass walk walking =>
    exact ⟨sound.addressed, sound.begins, sound.stored, sound.ends,
      follows_expired perPass sound.begins (meets perPass walk walking)⟩
  | failed => exact ⟨sound.addressed, sound.begins, sound.stored, sound.ends, trivial⟩
  | kept walk ended =>
    have hunder := sound.under
    simp only [Under, ended] at hunder
    obtain ⟨link, hlink, follows⟩ := hunder
    obtain ⟨came, hcame, hstands⟩ := follows.told
    refine ⟨keep_addressed sound.addressed walk, sound.begins, ⟨came, ?_, ?_⟩, sound.ends, trivial⟩
    · show world.server.told ((world.rows.keep keyOf walk).cursor.getD first) = some came
      rw [keep_cursor hlink]
      exact hcame
    · exact (kept_stands sound.addressed follows meets.1 meets.2).trans hstands
  | beside elsewhere messages stay =>
    have hstands := beside_stands elsewhere sound.addressed stay meets
    obtain ⟨told, htold, hheld⟩ := sound.stored
    refine ⟨fun id key h => ?_, sound.begins, ⟨told, htold, hstands.trans hheld⟩, sound.ends,
      under_rows sound.under hstands⟩
    exact ⟨(sound.addressed id key h).1, stay id key h⟩

theorem sound_start (folder : Folder) (elsewhere : List MessageKey)
    (messages : Table MessageKey Flags) :
    Sound keyOf first copies (World.start first folder elsewhere messages) := by
  have hfirst : (World.start first folder elsewhere messages).server.told first =
      some fun _ => none := by
    simp only [World.start, Function.update_self]
  refine ⟨fun id key h => ?_, hfirst, ⟨_, hfirst, .refl _⟩, fun link other h => ?_, trivial⟩
  · cases h
  · cases h

theorem sound_run {before : World} (run : Run keyOf first copies before after)
    (sound : Sound keyOf first copies before) : Sound keyOf first copies after := by
  induction run with
  | nil => exact sound
  | step world after event run step meets ih => exact sound_step step meets ih

/-- Wherever a deltaLink is stored and the folder is still as it was when the link was given, the
addresses held are the messages in the folder, with their flags where copies of one message agree;
and a pass leaves the addresses its walk came to exactly where it removes none it put back. -/
theorem walks_hold (folder : Folder) (elsewhere : List MessageKey)
    (messages : Table MessageKey Flags) {world : World}
    (run : Run keyOf first copies (World.start first folder elsewhere messages) world) :
    (∀ link, world.rows.cursor = some link →
      world.server.ended link = some world.server.folder →
      (∀ id, (world.rows.remotes.get id).isSome = (world.server.folder id).isSome) ∧
        (copies → ∀ id, world.rows.held id = world.server.folder id)) ∧
    ∀ after, Step keyOf first world .kept after →
      ((∀ id, (after.rows.remotes.get id).isSome =
          (Said.tellAll world.base world.log id).isSome) ↔
        Removed world.base world.log) := by
  have hsound := sound_run run (sound_start folder elsewhere messages)
  constructor
  · intro link hcursor hended
    obtain ⟨told, htold, hstands⟩ := hsound.stored
    rw [hcursor, Option.getD_some, hsound.ends link _ hended] at htold
    cases htold
    refine ⟨fun id => ?_, fun c id => by rw [hstands.flags c]⟩
    rw [← Rows.held_isSome hsound.addressed]
    exact hstands.same id
  · intro after hstep
    cases hstep with
    | kept walk ended =>
      have hunder := hsound.under
      simp only [Under, ended] at hunder
      obtain ⟨link, _, follows⟩ := hunder
      rw [← keep_exact hsound.addressed follows.gathered follows.began.same]
      simp only [Rows.held_isSome (keep_addressed hsound.addressed walk)]

/-! ## Passes of one page -/

/-- A pass the server answers with one page, from its first request until it is kept. -/
theorem pass_of_page {world : World} {page : Page} {link : String} {told : Folder}
    (idle : world.phase = .idle)
    (followed : world.server.told (world.rows.cursor.getD first) = some told)
    (ends : page.deltaLink = some link)
    (current : Said.tellAll told page.value = world.server.folder)
    (new : ∀ other, world.server.told link = some other → other = world.server.folder) :
    ∃ begun read after, Step keyOf first world (.start 0) begun ∧
      Step keyOf first begun (.page page) read ∧ Step keyOf first read .kept after ∧
      read.base = world.rows.held ∧ read.log = page.value ∧
      after.server = { world.server with
        told := Function.update world.server.told link (some world.server.folder)
        ended := Function.update world.server.ended link (some world.server.folder) } ∧
      after.rows = world.rows.keep keyOf
        { page.value.foldl Walk.entry (.start first world.rows.cursor) with cursor := some link } ∧
      after.phase = .idle := by
  have hpage : (Walk.start first world.rows.cursor).page 1 page = .ended
      { page.value.foldl Walk.entry (.start first world.rows.cursor) with
        cursor := some link } := by
    simp only [Walk.page, ends]
  refine ⟨_, _, _, .start world 0 idle, .page _ _ 1 _ page rfl
    (.last told link followed ends current new), .kept _ _ (congrArg (phaseOf 1) hpage), ?_⟩
  exact ⟨rfl, rfl, rfl, rfl, rfl⟩

def oneMessage : Folder := Function.update (fun _ => none) "m" (some (.unread, .unstarred))

def firstPage : Page := ⟨[.put "m" (.unread, .unstarred)], some "delta-1", none⟩

/-- The first pass over the folder. -/
theorem first_pass : ∃ begun read after,
    Step MessageKey.rfc "first" (World.start "first" oneMessage [] .empty) (.start 0) begun ∧
      Step MessageKey.rfc "first" begun (.page firstPage) read ∧
      Step MessageKey.rfc "first" read .kept after ∧ read.log = firstPage.value ∧
      after.server.folder = oneMessage ∧
      after.server.told = Function.update
        (Function.update (fun _ => none) "first" (some fun _ => none)) "delta-1"
        (some oneMessage) ∧
      after.server.ended "delta-1" = some oneMessage ∧
      after.rows = ⟨some "delta-1", Table.empty.set "m" (.rfc "m"), [],
        Table.empty.set (.rfc "m") (.unread, .unstarred)⟩ ∧
      after.phase = .idle := by
  have htold : (World.start "first" oneMessage [] .empty).server.told "first" =
      some fun _ => none := by
    simp only [World.start, Function.update_self]
  obtain ⟨begun, read, after, hstart, hpage, hkept, _, hlog, hserver, hrows, hphase⟩ :=
    @pass_of_page MessageKey.rfc "first" _ firstPage "delta-1" _ rfl htold rfl rfl
      (fun other h => by cases h)
  refine ⟨begun, read, after, hstart, hpage, hkept, hlog, ?_, ?_, ?_, ?_, hphase⟩
  · rw [hserver]
    rfl
  · rw [hserver]
    rfl
  · rw [hserver]
    simp only [World.start, Function.update_self]
  · rw [hrows]
    decide

def otherMessage : Folder := Function.update (fun _ => none) "n" (some (.read, .starred))

def secondPage : Page := ⟨[.drop "m", .put "n" (.read, .starred)], some "delta-2", none⟩

/-- The folder's message leaves and another comes between two passes: the second holds the other. -/
theorem walks_hold_second :
    ∃ world, Run MessageKey.rfc "first" True (World.start "first" oneMessage [] .empty) world ∧
      world.rows.cursor = some "delta-2" ∧ world.server.folder = otherMessage ∧
      ∀ id, world.rows.held id = world.server.folder id := by
  have hinj : Function.Injective MessageKey.rfc := fun _ _ => MessageKey.rfc.inj
  obtain ⟨begun, read, once, hstart, hpage, hkept, hlog, _, htold, _, hrows, hphase⟩ := first_pass
  have hremoved : Removed read.base read.log := by
    rw [hlog]
    intro id hid
    cases hid
  have hfirst : Run MessageKey.rfc "first" True (World.start "first" oneMessage [] .empty)
      { once with server := { once.server with folder := otherMessage } } :=
    .step _ _ _ _ (.step _ _ _ _ (.step _ _ _ _ (.step _ _ _ _ (.nil _) hstart trivial) hpage
      trivial) hkept ⟨hremoved, fun _ => agree_of_injective hinj hremoved⟩)
      (.change _ otherMessage) trivial
  have hfollowed : once.server.told (once.rows.cursor.getD "first") = some oneMessage := by
    rw [hrows, htold]
    exact Function.update_self ..
  have hcurrent : Said.tellAll oneMessage secondPage.value = otherMessage := by
    funext id
    simp only [secondPage, Said.tellAll, List.foldl_cons, List.foldl_nil, Said.tell, otherMessage,
      oneMessage, Function.update_idem, Function.update_apply]
    split <;> simp
  have hnew : ∀ other, once.server.told "delta-2" = some other → other = otherMessage := by
    intro other h
    rw [htold] at h
    simp at h
  obtain ⟨begun', read', after, hstart', hpage', hkept', _, hlog', hserver', hrows', _⟩ :=
    @pass_of_page MessageKey.rfc "first" { once with
      server := { once.server with folder := otherMessage } } secondPage "delta-2" oneMessage hphase
      hfollowed rfl hcurrent hnew
  have hdropped : Removed read'.base read'.log := by
    rw [hlog']
    intro id hid
    rw [List.mem_singleton.mp hid]
    simp [secondPage, Said.tellAll, Said.tell]
  have hrun := Run.step _ _ _ _ (.step _ _ _ _ (.step _ _ _ _ hfirst hstart' trivial) hpage'
    trivial) hkept' ⟨hdropped, fun _ => agree_of_injective hinj hdropped⟩
  have hcursor : after.rows.cursor = some "delta-2" := by
    rw [hrows', hrows]
    decide
  have hfolder : after.server.folder = otherMessage := by rw [hserver']
  have hended : after.server.ended "delta-2" = some after.server.folder := by
    rw [hserver']
    simp only [Function.update_self]
  have hheld := ((walks_hold oneMessage [] .empty hrun).1 _ hcursor hended).2
  exact ⟨after, hrun, hcursor, hfolder, hheld trivial⟩

def backAgain : Page := ⟨[.drop "m", .put "m" (.unread, .unstarred)], some "delta-2", none⟩

/-- A message that its own walk put back is dropped. -/
theorem put_back_dropped : ¬∀ (keyOf : String → MessageKey) (first : String) (folder : Folder)
    (world : World),
    Relation.ReflTransGen (fun before after => ∃ event, Step keyOf first before event after)
      (World.start first folder [] .empty) world →
    ∀ link, world.rows.cursor = some link →
      world.server.ended link = some world.server.folder →
      ∀ id, (world.rows.remotes.get id).isSome = (world.server.folder id).isSome := by
  intro claim
  obtain ⟨begun, read, once, hstart, hpage, hkept, _, hfolder, htold, _, hrows, hphase⟩ :=
    first_pass
  have hfollowed : once.server.told (once.rows.cursor.getD "first") = some oneMessage := by
    rw [hrows, htold]
    exact Function.update_self ..
  have hcurrent : Said.tellAll oneMessage backAgain.value = once.server.folder := by
    rw [hfolder]
    simp [backAgain, Said.tellAll, Said.tell, oneMessage]
  have hnew : ∀ other, once.server.told "delta-2" = some other → other = once.server.folder := by
    intro other h
    rw [htold] at h
    simp at h
  obtain ⟨begun', read', after, hstart', hpage', hkept', _, _, hserver', hrows', _⟩ :=
    @pass_of_page MessageKey.rfc "first" once backAgain "delta-2" oneMessage hphase hfollowed rfl
      hcurrent hnew
  have hended : after.server.ended "delta-2" = some after.server.folder := by
    rw [hserver']
    simp only [Function.update_self]
  have hsame := claim MessageKey.rfc "first" oneMessage after
    (.tail (.tail (.tail (.tail (.tail (.tail .refl ⟨_, hstart⟩) ⟨_, hpage⟩) ⟨_, hkept⟩)
      ⟨_, hstart'⟩) ⟨_, hpage'⟩) ⟨_, hkept'⟩) "delta-2"
    (by rw [hrows', hrows]; decide) hended "m"
  rw [hrows', hserver', hfolder, hrows] at hsame
  revert hsame
  decide

end Mailo.Engine.Graph
