import Mailo.Runtime.Jmap.Writing

/-!
# A pass catches up

What a pass marks gone, what the state it stores stands for, and what is held after one during
which the server did not change.
-/

namespace Mailo.Runtime.Jmap.Sync

open Domain Library Proto.Jmap
open Proto.Search (Mailboxes JmapMailbox)

variable {history : History} {whole : Prop}

/-- Nothing the stored state is ahead of is left unapplied to what is held; and with `whole`, nor
is an email left out. -/
structure Applied (history : History) (whole : Prop) (world : World) (state : Nat) : Prop where
  le : state ≤ world.now
  fresh : ∀ id seen, world.held.get id = some seen → history.Fresh state world.now id seen
  missed : whole → ∀ id, world.held.get id = none → history.Missed state world.now id

/-- What a pass has applied, up to a state: what is not held then is wanted. -/
structure Reached (history : History) (whole : Prop) (world : World) (state : Nat)
    (wanted : List String) : Prop where
  le : state ≤ world.now
  fresh : ∀ id seen, world.held.get id = some seen → history.Fresh state world.now id seen
  missed : whole → world.short = false → ∀ id, world.held.get id = none →
    history.Missed state world.now id ∨ id ∈ wanted

/-- What is held and what is still to be fetched, where the server has not changed. -/
structure Settled (history : History) (world : World) (left : List String) : Prop where
  held : ∀ id seen, world.held.get id = some seen → history.Followed world.now id
  left : world.short = false → ∀ id, history.Followed world.now id →
    world.held.get id = none → id ∈ left

/-- A pass under way. -/
structure Active (history : History) (world : World) : Prop where
  began : world.began ≤ world.now
  told : world.mailboxes = (history.snapshot world.began).mailboxes
  cursor : ∀ state, world.cursor = some state → state ≤ world.began

def Under (history : History) (whole : Prop) (world : World) : Prop :=
  match world.phase with
  | .idle => True
  | .changing since wanted _ =>
    Active history world ∧ Reached history whole world since wanted
  | .counting state wanted =>
    Active history world ∧ Reached history whole world state wanted
  | .listing state wanted listed position opened =>
    Active history world ∧
      (∀ reached, state = some reached → Reached history whole world reached wanted ∧
        (0 < position → reached ≤ opened)) ∧
      (0 < position → world.began ≤ opened ∧ opened ≤ world.now) ∧
      (world.began = world.now → listed =
        (query (history.snapshot world.now) world.mailboxes.unfollowed).take position)
  | .fetching state left =>
    Active history world ∧ Reached history whole world state left ∧
      (world.began = world.now → Settled history world left)

structure Sound (history : History) (whole : Prop) (world : World) : Prop where
  began : world.began ≤ world.now
  marked : ∀ id ∈ world.marked, ∃ v, world.began ≤ v ∧ v ≤ world.now ∧ ¬history.Followed v id
  stored : ∀ state, world.cursor = some state → Applied history whole world state
  under : Under history whole world

/-- What a request of a pass does to an address: it is left as it is, or says what its email is
now, or is taken out where its email was not to be held at some moment of the pass. -/
def Moves (history : History) (began now : Nat) (held held' : Table String Seen) : Prop :=
  ∀ id, held'.get id = held.get id ∨
    (∃ seen, held'.get id = some seen ∧ history.Fresh now now id seen) ∨
    held'.get id = none ∧ history.Missed began now id

variable {state : Nat} {world : World} {wanted : List String}

variable {world' before : World} {event : Event}

theorem Applied.moves {began : Nat} (applied : Applied history whole world state)
    (le : state ≤ began) (now : world'.now = world.now)
    (moves : Moves history began world.now world.held world'.held) :
    Applied history whole world' state := by
  refine ⟨by rw [now]; exact applied.le, fun id seen hget => ?_, fun hwhole id hget => ?_⟩
  · rw [now]
    obtain hsame | ⟨said, hsaid, hfresh⟩ | ⟨hnone, _⟩ := moves id
    · rw [hsame] at hget
      exact applied.fresh id seen hget
    · rw [hsaid] at hget
      cases hget
      exact hfresh.mono applied.le le_rfl
    · rw [hnone] at hget
      cases hget
  · rw [now]
    obtain hsame | ⟨said, hsaid, _⟩ | ⟨_, hmissed⟩ := moves id
    · rw [hsame] at hget
      exact applied.missed hwhole id hget
    · rw [hsaid] at hget
      cases hget
    · exact hmissed.mono le le_rfl

theorem Applied.same (applied : Applied history whole world state) (now : world'.now = world.now)
    (held : world'.held = world.held) :
    Applied history whole world' state := by
  constructor
  · exact now ▸ applied.le
  · exact held ▸ now ▸ applied.fresh
  · exact held ▸ now ▸ applied.missed

theorem sees_eq_none {mailboxes : Mailboxes} {email : EmailSummary} :
    sees mailboxes email = none ↔ filesAny mailboxes email.mailboxIds = false := by
  rw [← filing_unfollowed, sees]
  cases filing email.mailboxIds mailboxes <;> simp

theorem not_followed_of_sees {id : String} {email : Email} (plain : Plain history world id)
    (there : history.email world.now id = some email)
    (h : sees world.mailboxes (Server.summary id email) = none) :
    ¬history.Followed world.now id := by
  obtain hfiles | hnot := plain email there
  · rw [sees_eq_none] at h
    change filesAny world.mailboxes email.mailboxIds = false at h
    rw [h] at hfiles
    cases hfiles
  · exact hnot

theorem fresh_of_sees (active : Active history world) {id : String} {email : Email} {seen : Seen}
    (there : history.email world.now id = some email)
    (h : sees world.mailboxes (Server.summary id email) = some seen) :
    history.Fresh world.now world.now id seen :=
  ⟨world.now, le_rfl, le_rfl, .inr ⟨email, there, world.began, active.began, active.told ▸ h⟩⟩

/-! ## Changes -/

section Changed

variable {world : World} {since rounds : Nat} {wanted : List String} {changes : Changes}

theorem changed_moves (active : Active history world)
    (reports : history.Reports since world.now changes)
    (plain : ∀ id ∈ changes.updated, Plain history world id) :
    Moves history world.began world.now world.held
      (world.changed (history.snapshot world.now) wanted rounds changes).held := by
  intro id
  rw [changed_held]
  by_cases hdestroyed : id ∈ changes.destroyed
  · rw [if_pos hdestroyed]
    exact .inr (.inr ⟨rfl, History.missed_of_not_followed active.began le_rfl
      (History.not_followed_of_none (History.destroyed_now reports hdestroyed).1)⟩)
  rw [if_neg hdestroyed]
  by_cases hupdated : id ∈ changes.updated
  · rw [if_pos hupdated]
    cases hemail : (history.snapshot world.now).emails.get id with
    | none => exact .inl rfl
    | some email =>
      dsimp only
      cases hsees : sees world.mailboxes (Server.summary id email) with
      | none =>
        exact .inr (.inr ⟨rfl, History.missed_of_not_followed active.began le_rfl
          (not_followed_of_sees (plain id hupdated) hemail hsees)⟩)
      | some seen =>
        cases hget : world.held.get id with
        | none => exact .inl rfl
        | some old => exact .inr (.inl ⟨seen, rfl, fresh_of_sees active hemail hsees⟩)
  · rw [if_neg hupdated]
    exact .inl rfl

theorem changed_fresh (active : Active history world)
    (reached : Reached history whole world since wanted)
    (reports : history.Reports since world.now changes)
    (again : ∀ id ∈ changes.created, ∀ seen, world.held.get id = some seen →
      history.Fresh changes.newState world.now id seen) {id : String} {seen : Seen}
    (h : (world.changed (history.snapshot world.now) wanted rounds changes).held.get id =
      some seen) : history.Fresh changes.newState world.now id seen := by
  rw [changed_held] at h
  by_cases hdestroyed : id ∈ changes.destroyed
  · rw [if_pos hdestroyed] at h
    cases h
  rw [if_neg hdestroyed] at h
  by_cases hupdated : id ∈ changes.updated
  · rw [if_pos hupdated] at h
    cases hemail : (history.snapshot world.now).emails.get id with
    | none =>
      obtain ⟨v, hv, hsome⟩ := History.existed_of_updated reports hupdated
      exact (History.fresh_of_destroyed seen ⟨hemail, v, hv, hsome⟩).mono reports.le_now le_rfl
    | some email =>
      rw [hemail] at h
      obtain ⟨said, hsees, hsaid⟩ := Option.bind_eq_some_iff.mp h
      obtain ⟨old, _, rfl⟩ := Option.map_eq_some_iff.mp hsaid
      exact (fresh_of_sees active hemail hsees).mono reports.le_now le_rfl
  · rw [if_neg hupdated] at h
    by_cases hcreated : id ∈ changes.created
    · exact again id hcreated seen h
    · exact History.fresh_of_unnamed reports hcreated hupdated hdestroyed (reached.fresh id seen h)

theorem changed_missed (reached : Reached history whole world since wanted)
    (reports : history.Reports since world.now changes)
    (plain : ∀ id ∈ changes.updated, Plain history world id) (hwhole : whole)
    (hshort : world.short = false) {id : String}
    (h : (world.changed (history.snapshot world.now) wanted rounds changes).held.get id = none) :
    history.Missed changes.newState world.now id ∨
      id ∈ wantedOf world (history.snapshot world.now) wanted changes := by
  have hnow : ¬history.Followed world.now id → history.Missed changes.newState world.now id :=
    History.missed_of_not_followed reports.le_now le_rfl
  rw [changed_held] at h
  by_cases hdestroyed : id ∈ changes.destroyed
  · exact .inl (hnow (History.not_followed_of_none (History.destroyed_now reports hdestroyed).1))
  rw [if_neg hdestroyed] at h
  by_cases hupdated : id ∈ changes.updated
  · cases hemail : (history.snapshot world.now).emails.get id with
    | none => exact .inl (hnow (History.not_followed_of_none hemail))
    | some email =>
      cases hsees : sees world.mailboxes (Server.summary id email) with
      | none => exact .inl (hnow (not_followed_of_sees (plain id hupdated) hemail hsees))
      | some seen =>
        exact .inr (mem_wantedOf.mpr (.inr (.inr ⟨hupdated, email, hemail, by rw [hsees]; rfl⟩)))
  · rw [if_neg hupdated] at h
    by_cases hcreated : id ∈ changes.created
    · exact .inr (mem_wantedOf.mpr (.inr (.inl hcreated)))
    · obtain hmissed | hwanted := reached.missed hwhole hshort id h
      · exact .inl (History.missed_of_unnamed reports hcreated hupdated hdestroyed hmissed)
      · exact .inr (mem_wantedOf.mpr (.inl hwanted))

theorem changed_gone (active : Active history world)
    (reports : history.Reports since world.now changes)
    (plain : ∀ id ∈ changes.updated, Plain history world id) {id : String}
    (marked : ∀ id ∈ world.marked, ∃ v, world.began ≤ v ∧ v ≤ world.now ∧ ¬history.Followed v id)
    (h : id ∈ (world.changed (history.snapshot world.now) wanted rounds changes).marked) :
    ∃ v, world.began ≤ v ∧ v ≤ world.now ∧ ¬history.Followed v id := by
  obtain hbefore | hdestroyed | ⟨hupdated, email, hemail, hsees⟩ := changed_marked.mp h
  · exact marked id hbefore
  · exact ⟨world.now, active.began, le_rfl,
      History.not_followed_of_none (History.destroyed_now reports hdestroyed).1⟩
  · exact ⟨world.now, active.began, le_rfl,
      not_followed_of_sees (plain id hupdated) hemail hsees⟩

theorem sound_changed (sound : Sound history whole world)
    (asked : world.phase = .changing since wanted rounds)
    (reports : history.Reports since world.now changes)
    (meets : Meets history whole world (.changes changes)) :
    Sound history whole
      (world.changed (history.snapshot world.now) wanted rounds changes) := by
  have hunder := sound.under
  simp only [Under, asked] at hunder
  obtain ⟨active, reached⟩ := hunder
  obtain ⟨plain, again⟩ := meets
  refine ⟨sound.began, fun id hid => changed_gone active reports plain sound.marked hid,
    fun state hstate => ?_, ?_⟩
  · exact (sound.stored state hstate).moves (active.cursor state hstate) rfl
      (changed_moves active reports plain)
  · have hreached : Reached history whole
        (world.changed (history.snapshot world.now) wanted rounds changes) changes.newState
        (wantedOf world (history.snapshot world.now) wanted changes) :=
      ⟨reports.le_now, fun id seen hget => changed_fresh active reached reports again hget,
        fun hwhole hshort id hget => changed_missed reached reports plain hwhole hshort hget⟩
    obtain hphase | hphase :=
      changed_phase world (history.snapshot world.now) wanted rounds changes
    · simp only [Under, hphase]
      exact ⟨⟨active.began, active.told, active.cursor⟩, hreached⟩
    · simp only [Under, hphase]
      exact ⟨⟨active.began, active.told, active.cursor⟩, hreached⟩

end Changed

theorem under_fetches {before : Table String Seen} (active : Active history world)
    (le : state ≤ world.now)
    (fresh : ∀ id seen, world.held.get id = some seen → history.Fresh state world.now id seen)
    (missed : whole → world.short = false → ∀ id, world.held.get id = none →
      history.Missed state world.now id ∨ id ∈ World.missing before wanted)
    (settled : world.began = world.now → Settled history world (World.missing before wanted)) :
    Under history whole (world.fetches before state wanted) := by
  have htake : (world.fetches before state wanted).short = false → world.short = false ∧
      (World.missing before wanted).take world.budget = World.missing before wanted := by
    intro h
    obtain ⟨hshort, hbudget⟩ := Bool.or_eq_false_iff.mp h
    exact ⟨hshort, List.take_of_length_le (not_lt.mp (of_decide_eq_false hbudget))⟩
  refine ⟨⟨active.began, active.told, active.cursor⟩, ⟨le, fresh, fun hwhole hshort id hget => ?_⟩,
    fun hquiet => ⟨(settled hquiet).held, fun hshort id hfollowed hget => ?_⟩⟩
  · obtain ⟨hbefore, hall⟩ := htake hshort
    rw [hall]
    exact missed hwhole hbefore id hget
  · obtain ⟨hbefore, hall⟩ := htake hshort
    rw [hall]
    exact (settled hquiet).left hbefore id hfollowed hget

/-- In a pass during which the server has not changed, the listing is of what is followed. -/
theorem mem_query_quiet (active : Active history world) (quiet : world.began = world.now)
    {id : String} :
    id ∈ query (history.snapshot world.now) world.mailboxes.unfollowed ↔
      history.Followed world.now id := by
  rw [active.told, quiet]
  exact mem_query_followed

theorem counted_all (active : Active history world) (quiet : world.began = world.now)
    (even : (query (history.snapshot world.now) world.mailboxes.unfollowed).length =
      world.held.keys.length + (World.missing world.held wanted).length)
    (followed : ∀ id, (world.held.get id).isSome ∨ id ∈ wanted → history.Followed world.now id)
    {id : String} (h : history.Followed world.now id) (notHeld : world.held.get id = none) :
    id ∈ World.missing world.held wanted := by
  have hdistinct : (world.held.keys ++ World.missing world.held wanted).Nodup := by
    refine List.nodup_append.mpr
      ⟨world.held.distinct, missing_nodup _ _, fun a ha b hb heq => ?_⟩
    obtain ⟨seen, hseen⟩ := Table.mem_keys.mp ha
    rw [heq, (mem_missing.mp hb).2] at hseen
    cases hseen
  have hsubset : world.held.keys ++ World.missing world.held wanted ⊆
      query (history.snapshot world.now) world.mailboxes.unfollowed := by
    intro other hother
    refine (mem_query_quiet active quiet).mpr (followed other ?_)
    obtain hkey | hmissing := List.mem_append.mp hother
    · obtain ⟨seen, hseen⟩ := Table.mem_keys.mp hkey
      exact .inl (by rw [hseen]; rfl)
    · exact .inr (mem_missing.mp hmissing).1
  have hperm := (List.subperm_of_subset hdistinct hsubset).perm_of_length_le
    (by rw [even, List.length_append])
  have hmem := hperm.mem_iff.mpr ((mem_query_quiet active quiet).mpr h)
  obtain hkey | hmissing := List.mem_append.mp hmem
  · obtain ⟨seen, hseen⟩ := Table.mem_keys.mp hkey
    rw [notHeld] at hseen
    cases hseen
  · exact hmissing

theorem sound_counted (sound : Sound history whole world)
    (asked : world.phase = .counting state wanted) (meets : Meets history whole world .count) :
    Sound history whole (world.counted (history.snapshot world.now) state wanted) := by
  have hunder := sound.under
  simp only [Under, asked] at hunder
  obtain ⟨active, reached⟩ := hunder
  unfold World.counted
  dsimp only
  split
  · rename_i heven
    refine ⟨sound.began, sound.marked, fun at' hat => (sound.stored at' hat).same rfl rfl, ?_⟩
    · refine under_fetches active reached.le reached.fresh (fun hwhole hshort id hget => ?_)
        fun hquiet => ⟨fun id seen hget => ?_, fun hshort id hfollowed hget => ?_⟩
      · refine (reached.missed hwhole hshort id hget).imp_right fun hwanted => ?_
        exact mem_missing.mpr ⟨hwanted, hget⟩
      · exact meets state wanted asked hquiet heven id (.inl (by rw [hget]; rfl))
      · exact counted_all active hquiet heven (meets state wanted asked hquiet heven) hfollowed hget
  · refine ⟨sound.began, sound.marked, fun at' hat => (sound.stored at' hat).same rfl rfl, ?_⟩
    · refine ⟨⟨active.began, active.told, active.cursor⟩, ?_, ?_, fun _ => rfl⟩
      · intro reached' heq
        cases heq
        exact ⟨⟨reached.le, reached.fresh, reached.missed⟩, fun h => absurd h (lt_irrefl 0)⟩
      · exact fun h => absurd h (lt_irrefl 0)

/-! ## Listing -/

section Listing

variable {world : World} {size position opened : Nat} {state : Option Nat}
  {wanted listed : List String}

variable {server : Server}

theorem pages_all (some : 0 < size) (last : world.lastPage server size position) :
    (query server world.mailboxes.unfollowed).take position ++
      world.pageIds server size position = query server world.mailboxes.unfollowed := by
  unfold World.lastPage World.pageIds at *
  generalize query server world.mailboxes.unfollowed = all at *
  have hrest : (all.drop position).take size = all.drop position := by
    refine List.take_of_length_le ?_
    rw [List.length_take, List.length_drop] at last
    rw [List.length_drop]
    omega
  rw [hrest, List.take_append_drop]

theorem pages_next :
    (query server world.mailboxes.unfollowed).take position ++
      world.pageIds server size position = (query server world.mailboxes.unfollowed).take
        (position + (world.pageIds server size position).length) := by
  unfold World.pageIds
  generalize query server world.mailboxes.unfollowed = all
  rw [List.take_add, List.length_take]
  congr 1
  rw [List.take_eq_take_iff]
  omega

theorem openedAt_le (active : Active history world)
    (asked : 0 < position → world.began ≤ opened ∧ opened ≤ world.now) :
    world.began ≤ world.openedAt position opened ∧
      world.openedAt position opened ≤ world.now := by
  unfold World.openedAt
  split
  · exact ⟨active.began, le_rfl⟩
  · rename_i hne
    exact asked (Nat.pos_of_ne_zero hne)

/-- An email the last page leaves unlisted was not followed at some moment of the listing. -/
theorem unlisted (active : Active history world)
    (asked : 0 < position → world.began ≤ opened ∧ opened ≤ world.now) (some : 0 < size)
    (last : world.lastPage (history.snapshot world.now) size position)
    (quiet : world.began = world.now → listed =
      (query (history.snapshot world.now) world.mailboxes.unfollowed).take position)
    (complete : world.began ≠ world.now →
      ∀ id, (∀ v, world.openedAt position opened ≤ v → v ≤ world.now → history.Followed v id) →
        id ∈ listed ++ world.pageIds (history.snapshot world.now) size position)
    {id : String} (h : id ∉ listed ++ world.pageIds (history.snapshot world.now) size position) :
    ∃ v, world.openedAt position opened ≤ v ∧ v ≤ world.now ∧ ¬history.Followed v id := by
  by_cases hquiet : world.began = world.now
  · rw [quiet hquiet, pages_all some last, mem_query_quiet active hquiet] at h
    exact ⟨world.now, (openedAt_le active asked).2, le_rfl, h⟩
  · by_contra hnone
    refine h (complete hquiet id fun v hv hle => ?_)
    by_contra hnot
    exact hnone ⟨v, hv, hle, hnot⟩

theorem sound_paged (sound : Sound history whole world)
    (asked : world.phase = .listing state wanted listed position opened) (some : 0 < size)
    (meets : Meets history whole world (.page size)) :
    Sound history whole (world.paged (history.snapshot world.now) size state wanted listed
      position opened) := by
  have hunder := sound.under
  simp only [Under, asked] at hunder
  obtain ⟨active, reached, hopened, quiet⟩ := hunder
  obtain ⟨hbegan, hnow⟩ := openedAt_le active hopened
  have hstate : ∀ s, state = .some s → s ≤ world.openedAt position opened := by
    intro s hs
    obtain ⟨hreached, hle⟩ := reached s hs
    unfold World.openedAt
    split
    · exact hreached.le
    · rename_i hne
      exact hle (Nat.pos_of_ne_zero hne)
  unfold World.paged
  split
  · rename_i last
    obtain ⟨complete, again⟩ := meets state wanted listed position opened asked last
    have hunlisted := fun id => @unlisted history world size position opened listed active hopened
      some last quiet complete id
    generalize hL : listed ++ world.pageIds (history.snapshot world.now) size position = all at *
    have hfinal : state.getD (world.openedAt position opened) ≤
        world.openedAt position opened := by
      cases state with
      | none => exact le_rfl
      | some s => exact hstate s rfl
    have hgone : ∀ id, id ∉ all → history.Missed (world.openedAt position opened) world.now id := by
      intro id hid
      obtain ⟨v, hv, hle, hnot⟩ := hunlisted id hid
      exact History.missed_of_not_followed hv hle hnot
    refine ⟨sound.began, fun id hid => ?_, fun at' hat => ?_, ?_⟩
    · obtain hbefore | hmarked := List.mem_append.mp hid
      · exact sound.marked id hbefore
      · obtain ⟨_, hnot⟩ := List.mem_filter.mp hmarked
        obtain ⟨v, hv, hle, hnot⟩ := hunlisted id (by simpa using hnot)
        exact ⟨v, le_trans hbegan hv, hle, hnot⟩
    · refine (sound.stored at' hat).moves (active.cursor at' hat) rfl fun id => ?_
      show (Truth.write _ _).get id = _ ∨ _ ∨ (Truth.write _ _).get id = none ∧ _
      rw [settled_held]
      by_cases hid : id ∈ all
      · exact .inl (if_pos hid)
      · exact .inr (.inr ⟨if_neg hid, (hgone id hid).mono hbegan le_rfl⟩)
    · refine under_fetches ⟨active.began, active.told, active.cursor⟩ (le_trans hfinal hnow)
        (fun id seen hget => ?_) (fun _ _ id hget => ?_)
        fun hquiet => ⟨fun id seen hget => ?_, fun _ id hfollowed hget => ?_⟩
      · change (Truth.write _ _).get id = _ at hget
        rw [settled_held] at hget
        split at hget
        · rename_i hid
          cases state with
          | none => exact again rfl id hid seen hget
          | some s => exact (reached s rfl).1.fresh id seen hget
        · cases hget
      · change (Truth.write _ _).get id = _ at hget
        rw [settled_held] at hget
        split at hget
        · rename_i hid
          exact .inr (mem_missing.mpr ⟨List.mem_append_right _ hid, hget⟩)
        · rename_i hid
          exact .inl ((hgone id hid).mono hfinal le_rfl)
      · change (Truth.write _ _).get id = _ at hget
        rw [settled_held] at hget
        split at hget
        · rename_i hid
          rw [← hL, quiet hquiet, pages_all some last] at hid
          exact (mem_query_quiet active hquiet).mp hid
        · cases hget
      · have hid : id ∈ all := by
          rw [← hL, quiet hquiet, pages_all some last]
          exact (mem_query_quiet active hquiet).mpr hfollowed
        rw [settled_held, if_pos hid] at hget
        exact mem_missing.mpr ⟨List.mem_append_right _ hid, hget⟩
  · rename_i hmore
    refine ⟨sound.began, sound.marked, fun at' hat => (sound.stored at' hat).same rfl rfl, ?_⟩
    · refine ⟨⟨active.began, active.told, active.cursor⟩, fun s hs => ?_, fun _ => ⟨hbegan, hnow⟩,
        fun hquiet => ?_⟩
      · have hreached := (reached s hs).1
        exact ⟨⟨hreached.le, hreached.fresh, hreached.missed⟩, fun _ => hstate s hs⟩
      · rw [quiet hquiet]
        exact pages_next

end Listing

/-! ## Fetching -/

section Fetching

variable {world : World} {state : Nat} {chunk rest unreadable : List String}

theorem fetched_held (id : String) :
    (world.fetched (history.snapshot world.now) state chunk rest unreadable).held.get id =
      world.held.get id ∨
    ∃ email seen, id ∈ chunk ∧ history.email world.now id = some email ∧
      sees world.mailboxes (Server.summary id email) = some seen ∧
      (world.fetched (history.snapshot world.now) state chunk rest unreadable).held.get id =
        some seen := by
  unfold World.fetched
  rw [set_all_get]
  by_cases hid : id ∈ chunk
  · rw [if_pos hid]
    cases hemail : (history.snapshot world.now).emails.get id with
    | none => exact .inl rfl
    | some email =>
      rw [Option.map_some, Option.bind_some]
      split
      · cases hsees : sees world.mailboxes (Server.summary id email) with
        | none => exact .inl rfl
        | some seen => exact .inr ⟨email, seen, hid, hemail, hsees, rfl⟩
      · exact .inl rfl
  · exact .inl (if_neg hid)

/-- An email of a chunk that is not held after it is not followed, unless it cannot be read. -/
theorem fetched_not (plain : ∀ id ∈ chunk, Plain history world id) {id : String} (hid : id ∈ chunk)
    (readable :
      (world.fetched (history.snapshot world.now) state chunk rest unreadable).short = false)
    (h : (world.fetched (history.snapshot world.now) state chunk rest unreadable).held.get id =
      none) : ¬history.Followed world.now id := by
  cases hemail : (history.snapshot world.now).emails.get id with
  | none => exact History.not_followed_of_none hemail
  | some email =>
    refine not_followed_of_sees (plain id hid) hemail ?_
    by_contra hnot
    obtain ⟨seen, hsees⟩ := Option.ne_none_iff_exists'.mp hnot
    unfold World.fetched at readable h
    have hfound : Server.summary id email ∈ (history.snapshot world.now).get chunk :=
      Server.mem_get.mpr ⟨hid, email, hemail, rfl⟩
    have hread := List.any_eq_false.mp (Bool.or_eq_false_iff.mp readable).2 _ hfound
    rw [hsees, Option.isSome_some, Bool.true_and, Bool.not_eq_true] at hread
    rw [set_all_get, if_pos hid, hemail, Option.map_some, Option.bind_some, hread, Bool.not_false,
      if_pos rfl, hsees] at h
    cases h

theorem sound_fetched (sound : Sound history whole world)
    (asked : world.phase = .fetching state (chunk ++ rest))
    (meets : Meets history whole world (.fetched chunk unreadable)) :
    Sound history whole
      (world.fetched (history.snapshot world.now) state chunk rest unreadable) := by
  have hunder := sound.under
  simp only [Under, asked] at hunder
  obtain ⟨active, reached, settled⟩ := hunder
  have hshort :
      (world.fetched (history.snapshot world.now) state chunk rest unreadable).short = false →
        world.short = false := fun h => (Bool.or_eq_false_iff.mp h).1
  -- An address not held after the chunk was not held before it.
  have hbefore : ∀ id, (world.fetched (history.snapshot world.now) state chunk rest
      unreadable).held.get id = none → world.held.get id = none := by
    intro id hget
    obtain hsame | ⟨_, _, _, _, _, hsome⟩ := fetched_held id
    · rw [← hsame]
      exact hget
    · rw [hsome] at hget
      cases hget
  refine ⟨sound.began, sound.marked, fun at' hat => ?_, ?_⟩
  · refine (sound.stored at' hat).moves (active.cursor at' hat) rfl fun id => ?_
    obtain hsame | ⟨email, seen, _, hemail, hsees, hsome⟩ := fetched_held id
    · exact .inl hsame
    · exact .inr (.inl ⟨seen, hsome, fresh_of_sees active hemail hsees⟩)
  · refine ⟨⟨active.began, active.told, active.cursor⟩,
      ⟨reached.le, fun id seen hget => ?_, fun hwhole hafter id hget => ?_⟩,
      fun hquiet => ⟨fun id seen hget => ?_, fun hafter id hfollowed hget => ?_⟩⟩
    · obtain hsame | ⟨email, said, _, hemail, hsees, hsome⟩ := fetched_held id
      · rw [hsame] at hget
        exact reached.fresh id seen hget
      · rw [hsome] at hget
        cases hget
        exact (fresh_of_sees active hemail hsees).mono reached.le le_rfl
    · by_cases hid : id ∈ chunk
      · exact .inl (History.missed_of_not_followed reached.le le_rfl
          (fetched_not meets hid hafter hget))
      · refine (reached.missed hwhole (hshort hafter) id (hbefore id hget)).imp_right fun h => ?_
        exact (List.mem_append.mp h).resolve_left hid
    · obtain hsame | ⟨email, said, _, hemail, hsees, _⟩ := fetched_held id
      · rw [hsame] at hget
        exact (settled hquiet).held id seen hget
      · have hfiles : filesAny world.mailboxes email.mailboxIds = true := by
          by_contra hnot
          have hnone := sees_eq_none.mpr ((Bool.not_eq_true _).mp hnot :
            filesAny world.mailboxes (Server.summary id email).mailboxIds = false)
          rw [hsees] at hnone
          cases hnone
        rw [active.told, show world.began = world.now from hquiet] at hfiles
        obtain ⟨mailbox, hmem, hnot⟩ := files_followed (history.named world.now) hfiles
        exact ⟨email, hemail, mailbox, hmem, hnot⟩
    · by_cases hid : id ∈ chunk
      · exact absurd hfollowed (fetched_not meets hid hafter hget)
      · exact (List.mem_append.mp ((settled hquiet).left (hshort hafter) id hfollowed
          (hbefore id hget))).resolve_left hid

end Fetching

/-! ## Every step -/

theorem Reached.later (reached : Reached history whole world state wanted) :
    Reached history whole { world with now := world.now + 1 } state wanted :=
  ⟨le_trans reached.le (Nat.le_succ _),
    fun id seen hget => (reached.fresh id seen hget).mono le_rfl (Nat.le_succ _),
    fun hwhole hshort id hget => (reached.missed hwhole hshort id hget).imp_left fun h =>
      h.mono le_rfl (Nat.le_succ _)⟩

theorem Active.later (active : Active history world) :
    Active history { world with now := world.now + 1 } :=
  ⟨le_trans active.began (Nat.le_succ _), active.told, active.cursor⟩

/-- The server's next moment changes nothing of what a pass has applied. -/
theorem under_change (began : world.began ≤ world.now) (under : Under history whole world) :
    Under history whole { world with now := world.now + 1 } := by
  have hbusy : ¬world.began = world.now + 1 := by omega
  obtain ⟨now, held, cursor, phase, began, mailboxes, budget, marked, short⟩ := world
  cases phase with
  | idle => trivial
  | changing | counting => exact ⟨under.1.later, under.2.later⟩
  | listing state wanted listed position opened =>
    obtain ⟨active, reached, hopened, _⟩ := under
    exact ⟨active.later, fun s hs => ⟨(reached s hs).1.later, (reached s hs).2⟩,
      fun h => ⟨(hopened h).1, le_trans (hopened h).2 (Nat.le_succ _)⟩,
      fun h => absurd h hbusy⟩
  | fetching state left =>
    obtain ⟨active, reached, _⟩ := under
    exact ⟨active.later, reached.later, fun h => absurd h hbusy⟩

theorem sound_change (sound : Sound history whole world) :
    Sound history whole { world with now := world.now + 1 } := by
  have hle : world.now ≤ world.now + 1 := Nat.le_succ _
  refine ⟨le_trans sound.began hle, fun id hid => ?_, fun state hstate => ?_,
    under_change sound.began sound.under⟩
  · obtain ⟨v, hv, hnow, hnot⟩ := sound.marked id hid
    exact ⟨v, hv, le_trans hnow hle, hnot⟩
  · have applied := sound.stored state hstate
    exact ⟨le_trans applied.le hle, fun id seen hget => (applied.fresh id seen hget).mono le_rfl hle,
      fun hwhole id hget => (applied.missed hwhole id hget).mono le_rfl hle⟩

theorem sound_begins (sound : Sound history whole world) (budget : Nat) :
    Sound history whole (world.begins (history.snapshot world.now) budget) := by
  refine ⟨le_rfl, fun id hid => (by cases hid),
    fun state hstate => (sound.stored state hstate).same rfl rfl, ?_⟩
  · have active : Active history (world.begins (history.snapshot world.now) budget) :=
      ⟨le_rfl, rfl, fun state hstate => (sound.stored state hstate).le⟩
    cases hcursor : world.cursor with
    | none =>
      simp only [Under, World.begins, hcursor]
      refine ⟨?_, fun s hs => (by cases hs), fun h => absurd h (lt_irrefl 0), fun _ => rfl⟩
      exact ⟨active.began, active.told, fun state hstate => by cases hstate⟩
    | some since =>
      simp only [Under, World.begins, hcursor]
      have applied := sound.stored since hcursor
      refine ⟨⟨active.began, active.told, fun state hstate => ?_⟩, applied.le, applied.fresh,
        fun hwhole _ id hget => .inl (applied.missed hwhole id hget)⟩
      cases hstate
      exact applied.le

variable {after : World}

theorem sound_step (step : Step history world event after) (meets : Meets history whole world event)
    (sound : Sound history whole world) :
    Sound history whole after := by
  cases step with
  | change => exact sound_change sound
  | «begin» budget idle => exact sound_begins sound budget
  | changes since rounds wanted changes asked reports =>
    exact sound_changed sound asked reports meets
  | cannot since rounds wanted asked old =>
    have hunder := sound.under
    simp only [Under, asked] at hunder
    refine ⟨sound.began, sound.marked,
      fun state hstate => (sound.stored state hstate).same rfl rfl, ?_⟩
    · exact ⟨⟨hunder.1.began, hunder.1.told, hunder.1.cursor⟩, fun s hs => (by cases hs),
        fun h => absurd h (lt_irrefl 0), fun _ => rfl⟩
  | count state wanted asked => exact sound_counted sound asked meets
  | page size state wanted listed position opened asked some limit =>
    exact sound_paged sound asked some meets
  | fetched state chunk rest unreadable asked some => exact sound_fetched sound asked meets
  | stored state done =>
    have hunder := sound.under
    simp only [Under, done] at hunder
    obtain ⟨_, reached, _⟩ := hunder
    refine ⟨sound.began, sound.marked, fun stored hstored => ?_, trivial⟩
    cases hstored
    refine ⟨reached.le, reached.fresh, fun hwhole id hget => ?_⟩
    exact (reached.missed hwhole (meets hwhole) id hget).resolve_right List.not_mem_nil
  | failed =>
    exact ⟨sound.began, sound.marked,
      fun state hstate => (sound.stored state hstate).same rfl rfl, trivial⟩

theorem sound_run (run : Run history whole before after) (sound : Sound history whole before) :
    Sound history whole after := by
  induction run with
  | nil => exact sound
  | step world after event run step meets ih => exact sound_step step meets ih

theorem sound_start : Sound history whole World.start :=
  ⟨le_rfl, fun id hid => (by cases hid), fun state hstate => (by cases hstate), trivial⟩

/-! ## Passes over a server that rests -/

/-- Everything followed is held, and nothing else, by the state of this moment. -/
structure Resting (history : History) (world : World) : Prop where
  held : ∀ id, (world.held.get id).isSome ↔ history.Followed world.now id
  cursor : world.cursor = some world.now
  phase : world.phase = .idle ∨
    world.mailboxes = (history.snapshot world.now).mailboxes ∧
      ((∃ rounds, world.phase = .changing world.now [] rounds) ∨
        world.phase = .counting world.now [] ∨ world.phase = .fetching world.now [])

/-- Steps during which the server does not change. -/
inductive Rests (history : History) : World → World → Prop where
  | nil (world : World) : Rests history world world
  | step (before world after : World) (event : Event) (rests : Rests history before world)
      (step : Step history world event after) (still : event ≠ .change) :
      Rests history before after

theorem resting_length (resting : Resting history world)
    (told : world.mailboxes = (history.snapshot world.now).mailboxes) :
    (query (history.snapshot world.now) world.mailboxes.unfollowed).length =
      world.held.keys.length := by
  refine List.Perm.length_eq ((List.perm_ext_iff_of_nodup (query_nodup _ _)
    world.held.distinct).mpr fun id => ?_)
  rw [told, mem_query_followed, ← resting.held, Option.isSome_iff_exists]
  exact Table.mem_keys.symm

namespace Resting

variable {world : World} (resting : Resting history world) {state : Nat} {left : List String}

include resting

/-- Where a pass asks what changed, it asks from this moment and wants nothing. -/
theorem changing {rounds : Nat} (asked : world.phase = .changing state left rounds) :
    world.mailboxes = (history.snapshot world.now).mailboxes ∧ state = world.now ∧ left = [] := by
  obtain hidle | ⟨told, ⟨round, hphase⟩ | hphase | hphase⟩ := resting.phase
  all_goals rw [asked] at *
  · cases hidle
  · cases hphase
    exact ⟨told, rfl, rfl⟩
  · cases hphase
  · cases hphase

theorem counting (asked : world.phase = .counting state left) :
    world.mailboxes = (history.snapshot world.now).mailboxes ∧ state = world.now ∧ left = [] := by
  obtain hidle | ⟨told, ⟨round, hphase⟩ | hphase | hphase⟩ := resting.phase
  all_goals rw [asked] at *
  · cases hidle
  · cases hphase
  · cases hphase
    exact ⟨told, rfl, rfl⟩
  · cases hphase

theorem fetching (asked : world.phase = .fetching state left) : state = world.now ∧ left = [] := by
  obtain hidle | ⟨_, ⟨round, hphase⟩ | hphase | hphase⟩ := resting.phase
  all_goals rw [asked] at *
  · cases hidle
  · cases hphase
  · cases hphase
  · cases hphase
    exact ⟨rfl, rfl⟩

theorem not_listing (state : Option Nat) (wanted listed : List String) (position opened : Nat) :
    world.phase ≠ .listing state wanted listed position opened := by
  intro h
  obtain hidle | ⟨_, ⟨round, hphase⟩ | hphase | hphase⟩ := resting.phase
  all_goals
    rw [h] at *
    contradiction

end Resting

theorem resting_step (step : Step history world event after) (still : event ≠ .change)
    (resting : Resting history world) : Resting history after := by
  have hheld := resting.held
  have hcursor := resting.cursor
  cases step with
  | change => exact absurd rfl still
  | «begin» budget idle =>
    refine ⟨hheld, hcursor, .inr ⟨rfl, .inl ⟨0, ?_⟩⟩⟩
    simp only [World.begins, hcursor]
  | changes since rounds wanted changes asked reports =>
    obtain ⟨told, rfl, rfl⟩ := resting.changing asked
    obtain ⟨hcreated, hupdated, hdestroyed⟩ := History.nothing_named reports
    have hstate : changes.newState = world.now := le_antisymm reports.le_now reports.since_le
    have hwanted : wantedOf world (history.snapshot world.now) [] changes = [] := by
      rw [wantedOf, hupdated, hcreated]
      rfl
    refine ⟨fun id => ?_, hcursor, .inr ⟨told, ?_⟩⟩
    · rw [changed_held, hdestroyed, hupdated, if_neg List.not_mem_nil, if_neg List.not_mem_nil]
      exact hheld id
    · obtain hnext | hnext := changed_phase world (history.snapshot world.now) [] rounds changes
      · rw [hwanted, hstate] at hnext
        exact .inl ⟨_, hnext⟩
      · rw [hwanted, hstate] at hnext
        exact .inr (.inl hnext)
  | cannot since rounds wanted asked old =>
    obtain ⟨_, rfl, _⟩ := resting.changing asked
    exact absurd old (lt_irrefl _)
  | count state wanted asked =>
    obtain ⟨told, rfl, rfl⟩ := resting.counting asked
    have heven := resting_length resting told
    refine ⟨?_, ?_, .inr ⟨?_, .inr (.inr ?_)⟩⟩
    all_goals
      rw [World.counted, if_pos (by rw [heven]; rfl)]
    · exact hheld
    · exact hcursor
    · exact told
    · show Phase.fetching _ ([].take _) = _
      rw [List.take_nil]
      rfl
  | page size state wanted listed position opened asked some limit =>
    exact absurd asked (resting.not_listing state wanted listed position opened)
  | fetched state chunk rest unreadable asked some =>
    exact absurd (List.append_eq_nil_iff.mp (resting.fetching asked).2).1 some
  | stored state done =>
    obtain ⟨rfl, _⟩ := resting.fetching done
    exact ⟨hheld, rfl, .inl rfl⟩
  | failed => exact ⟨hheld, hcursor, .inl rfl⟩

theorem resting_rests (rests : Rests history before after) (resting : Resting history before) :
    Resting history after := by
  induction rests with
  | nil => exact resting
  | step world after event rests step still ih => exact resting_step step still ih

/-- What a pass marks gone was not followed at some moment of it; the state stored is not ahead of
what is held; and a pass that ends with the server as it began holds what is followed, so that the
passes after it list and fetch nothing until the server changes. -/
theorem catches_up {world : World} (run : Run history whole World.start world) :
    (∀ id ∈ world.marked, ∃ v, world.began ≤ v ∧ v ≤ world.now ∧ ¬history.Followed v id) ∧
    (∀ state, world.cursor = some state →
      (∀ id seen, world.held.get id = some seen → history.Fresh state world.now id seen) ∧
        (whole → ∀ id, world.held.get id = none → history.Missed state world.now id)) ∧
    ∀ after, Step history world .stored after → world.began = world.now →
      world.short = false →
        (∀ id, (after.held.get id).isSome ↔ history.Followed after.now id) ∧
        (after.cursor = some after.now → ∀ later, Rests history after later →
          (∀ state wanted listed position opened,
            later.phase ≠ .listing state wanted listed position opened) ∧
          ∀ state left, later.phase = .fetching state left → left = []) := by
  have sound := sound_run run sound_start
  refine ⟨sound.marked, fun state hstate => ⟨(sound.stored state hstate).fresh,
    (sound.stored state hstate).missed⟩, fun after hstep hquiet hshort => ?_⟩
  cases hstep with
  | stored state done =>
    have hunder := sound.under
    simp only [Under, done] at hunder
    have hsettled := hunder.2.2 hquiet
    have hheld : ∀ id, (world.held.get id).isSome ↔ history.Followed world.now id := by
      intro id
      constructor
      · intro hsome
        obtain ⟨seen, hseen⟩ := Option.isSome_iff_exists.mp hsome
        exact hsettled.held id seen hseen
      · intro hfollowed
        by_contra hnone
        rw [Option.not_isSome_iff_eq_none] at hnone
        exact List.not_mem_nil (hsettled.left hshort id hfollowed hnone)
    refine ⟨hheld, fun hcursor later hrests => ?_⟩
    have hresting := resting_rests hrests ⟨hheld, hcursor, .inl rfl⟩
    exact ⟨hresting.not_listing, fun state left hphase =>
      (hresting.fetching hphase).2⟩

/-! ## An email in a mailbox of another role -/

def twoMailboxes : Mailboxes :=
  ⟨[⟨"i", "Inbox", none, some .inbox, 0⟩, ⟨"m", "Memos", none, some (.other "memos"), 0⟩]⟩

def inMailbox (mailbox : String) (keywords : List String) : Email := ⟨[mailbox], keywords, ""⟩

def oneEmail (email : Email) : Server := ⟨twoMailboxes, Table.empty.set "e" email⟩

theorem oneEmail_get (email : Email) (id : String) :
    (oneEmail email).emails.get id = if id = "e" then some email else none := by
  rw [oneEmail, Table.get_set, Table.get_empty]

/-- An email that is moved or marked, or stays as it is, between two moments. -/
def turning (first later : String × List String) : History where
  snapshot := fun v =>
    oneEmail (if v = 0 then inMailbox first.1 first.2 else inMailbox later.1 later.2)
  retired := by
    intro id u v w _ _ _ hnone
    have hother : id ≠ "e" := fun heq => by simp [oneEmail_get, heq] at hnone
    simp [oneEmail_get, hother]
  somewhere := by
    intro v id email hemail
    rw [oneEmail_get] at hemail
    split at hemail <;> cases hemail
    split <;> simp [inMailbox]
  named := by
    intro v
    have h : (twoMailboxes.list.map JmapMailbox.id).Nodup := by decide
    exact h

variable {first later : String × List String}

theorem turning_email (v : Nat) (id : String) :
    (turning first later).email v id = if id = "e" then
      some (if v = 0 then inMailbox first.1 first.2 else inMailbox later.1 later.2) else none :=
  oneEmail_get _ id

theorem turning_reports (turned : inMailbox later.1 later.2 ≠ inMailbox first.1 first.2) :
    (turning first later).Reports 0 1 ⟨1, .no, [], ["e"], []⟩ where
  since_le := by decide
  le_now := le_rfl
  last := fun _ => rfl
  unnamed := by
    intro id _ hupdated _
    have hother : id ≠ "e" := fun heq => hupdated (List.mem_singleton.mpr heq)
    exact .inr ⟨by rw [turning_email, if_neg hother], by rw [turning_email, if_neg hother]⟩
  created := by
    intro id hid
    cases hid
  updated := by
    intro id hid
    refine ⟨1, by decide, le_rfl, ?_⟩
    rw [List.mem_singleton.mp hid, turning_email, turning_email]
    simpa using turned
  destroyed := by
    intro id hid
    cases hid

/-- A first pass, which stores the email; it has read all but its state. -/
def firstPass : World :=
  ((World.start.begins (oneEmail (inMailbox "i" [])) 5).paged (oneEmail (inMailbox "i" [])) 10 none
    [] [] 0 0).fetched (oneEmail (inMailbox "i" [])) 0 ["e"] [] []

/-- The next pass, once the server has changed. -/
def laterPass (email : Email) : World :=
  ({ firstPass with cursor := some 0, phase := .idle, now := 1 } : World).begins (oneEmail email) 5

def readEmail : Email := inMailbox "i" ["$seen"]

def changedPass : World := (laterPass readEmail).changed (oneEmail readEmail) [] 0
  ⟨1, .no, [], ["e"], []⟩

theorem changed_pass : Run (turning ("i", []) ("i", ["$seen"])) True World.start changedPass := by
  refine .step _ _ _ (.changes ⟨1, .no, [], ["e"], []⟩) (.step _ _ _ (.begin 5) (.step _ _ _ .change
    (.step _ _ _ .stored (.step _ _ _ (.fetched ["e"] []) (.step _ _ _ (.page 10) (.step _ _ _
    (.begin 5) (.nil _) (.begin _ 5 rfl) trivial) (.page _ 10 none [] [] 0 0 rfl (by decide)
    (by decide)) ?_) (.fetched _ 0 ["e"] [] [] (by decide) (by decide)) ?_)
    (.stored _ 0 (by decide)) ?_) (.change _) trivial) (.begin _ 5 rfl) trivial)
    (.changes _ 0 0 [] _ rfl (turning_reports (by decide))) ?_
  · intro state wanted listed position opened hphase hlast
    cases hphase
    exact ⟨fun hne => absurd rfl hne, fun _ id _ seen hget => by cases hget⟩
  · intro id hid email hemail
    rw [List.mem_singleton.mp hid] at hemail
    cases hemail
    exact .inl (by decide)
  · exact fun _ => by decide
  · refine ⟨fun id hid email hemail => ?_, fun id hid => by cases hid⟩
    rw [List.mem_singleton.mp hid] at hemail
    cases hemail
    exact .inl (by decide)

theorem counted_pass : Run (turning ("i", []) ("i", ["$seen"])) True World.start
    (changedPass.counted (oneEmail readEmail) 1 ["e"]) := by
  refine .step _ _ _ .count changed_pass (.count _ 1 ["e"] (by decide)) ?_
  intro state wanted hphase _ _ id hheld
  have hheldAt : changedPass.held.keys = ["e"] := by decide
  have hwanted : wanted = ["e"] := by
    have hcounting : changedPass.phase = .counting 1 ["e"] := by decide
    rw [hcounting] at hphase
    cases hphase
    rfl
  have hid : id = "e" := by
    rcases hheld with hget | hmem
    · have hkey := Table.mem_keys.mpr (Option.isSome_iff_exists.mp hget)
      exact List.mem_singleton.mp (hheldAt ▸ hkey)
    · exact List.mem_singleton.mp (hwanted ▸ hmem)
  exact ⟨readEmail, by rw [hid]; rfl, "i", .head _, by decide⟩

/-- An email stored by a first pass and read elsewhere since: the next pass hears of the change,
writes it, and ends with the email held and marked as read. -/
theorem catches_up_changed : ∃ after,
    Step (turning ("i", []) ("i", ["$seen"])) (changedPass.counted (oneEmail readEmail) 1 ["e"])
      .stored after ∧
    (∀ id, (after.held.get id).isSome ↔
      (turning ("i", []) ("i", ["$seen"])).Followed after.now id) ∧
    (after.held.get "e").map Seen.read = some .read :=
  ⟨_, .stored _ 1 (by decide), ((catches_up counted_pass).2.2 _
    (.stored _ 1 (by decide)) rfl (by decide)).1, by decide⟩

/-- An email moved to the other mailbox is marked gone, though it was followed all along. -/
theorem marked_though_followed : ¬∀ (history : History) (world : World),
    Relation.ReflTransGen (fun before after => ∃ event, Step history before event after)
      World.start world →
    ∀ id ∈ world.marked, ∃ v, world.began ≤ v ∧ v ≤ world.now ∧ ¬history.Followed v id := by
  intro claim
  have hsteps : Relation.ReflTransGen
      (fun before after => ∃ event, Step (turning ("i", []) ("m", [])) before event after)
      World.start ((laterPass (inMailbox "m" [])).changed (oneEmail (inMailbox "m" [])) [] 0
        ⟨1, .no, [], ["e"], []⟩) := by
    refine .tail (.tail (.tail (.tail (.tail (.tail (.tail .refl ⟨_, .begin _ 5 rfl⟩)
      ⟨_, .page _ 10 none [] [] 0 0 rfl (by decide) (by decide)⟩)
      ⟨_, .fetched _ 0 ["e"] [] [] (by decide) (by decide)⟩) ⟨_, .stored _ 0 (by decide)⟩)
      ⟨_, .change _⟩) ⟨_, .begin _ 5 rfl⟩) ⟨_, .changes _ 0 0 [] ⟨1, .no, [], ["e"], []⟩ rfl ?_⟩
    exact turning_reports (by decide)
  obtain ⟨v, hv, hle, hnot⟩ := claim (turning ("i", []) ("m", [])) _ hsteps "e" (by decide)
  have hmoment : v = 1 := le_antisymm hle hv
  refine hnot ⟨inMailbox "m" [], ?_, "m", List.mem_singleton_self "m", ?_⟩
  · rw [hmoment]
    rfl
  · rw [hmoment]
    decide

end Mailo.Runtime.Jmap.Sync
