import Mailo.Store.Blob.Kept

/-!
# What a sweep takes

A blob that a row names, or one named or returned within the hour, keeps its row: no sweep chooses it but
one that finds it put again since. With the files kept, no stored blob is lost.
-/

namespace Mailo.Store.Blob

open Domain Library

section Wanting

variable {Content : Type}

/-! ## What is wanted -/

/-- Its row is there, and a sweep that has chosen it will find it put again. -/
structure Stays (world : World Content) (blob : BlobId) : Prop where
  row : HasRow world blob
  chosen : ∀ id sweep, world.sweeps.get id = some sweep → blob ∈ chosen sweep.phase →
    Fresh world sweep.now blob

/-- A blob put or unnamed at that time: its row was written no earlier, or no list has it so long that a
sweep of the hour after could take it. -/
def Guarded (world : World Content) (blob : BlobId) (time : Int) : Prop :=
  (∀ row ∈ world.rows.get blob, time ≤ row.created) ∨
    ¬ SeenUnnamed world blob (time + blobGrace - blobGraceDelete)

structure Wanted (tables : Nat) (world : World Content) : Prop where
  named : ∀ name ∈ world.names, name.1 < tables ∧ HasRow world name.2 ∧
    ∀ id sweep, world.sweeps.get id = some sweep → ¬ MayTake world name.1 name.2 sweep
  marked : ∀ blob time, (blob, time) ∈ world.returned ++ world.dropped → time ≤ world.clock ∧
    (world.clock - time ≤ blobGrace → Stays world blob ∧ Guarded world blob time)

variable {layout : Layout Content} {tables : Nat} {world next : World Content}
  {sweep : Sweep Content} {blob : BlobId}

theorem wanted_empty (clock : Int) : Wanted tables (World.start clock : World Content) where
  named := by intro _ h; cases h
  marked := by intro _ _ h; cases h

theorem Wanted.stays (hwanted : Wanted tables world) {table : Nat}
    (hname : (table, blob) ∈ world.names) : Stays world blob := by
  obtain ⟨_, hrow, hspared⟩ := hwanted.named (table, blob) hname
  refine ⟨hrow, fun id sweep hsweep hchosen => ?_⟩
  by_contra hold
  exact hspared id sweep hsweep ⟨hold, .inl hchosen⟩

/-! ## Steps -/

/-- How a step may change a sweep: what it chooses, the list has had for a day and its scan of every
table has left; what it deletes, it chose and finds old. -/
structure Moved (tables : Nat) (world : World Content) (sweep held : Sweep Content) : Prop where
  now : held.now = sweep.now
  next : ∀ blob first, held.next.get (.blob blob) = some first →
    sweep.next.get (.blob blob) = some first ∨ world.candidates.get (.blob blob) = some first ∨
      blob ∈ scanned sweep.phase ∧ first = sweep.now
  scanned : ∀ blob ∈ scanned held.phase, blob ∈ scanned sweep.phase ∧
    ∀ table, HasRead table held.phase → HasRead table sweep.phase ∨ (table, blob) ∉ world.names
  chosen : ∀ blob ∈ chosen held.phase, blob ∈ chosen sweep.phase ∨
    blob ∈ Blob.scanned sweep.phase ∧ (∀ table < tables, HasRead table sweep.phase) ∧
      ∃ first ∈ world.candidates.get (.blob blob), first ≤ sweep.now - blobGraceDelete
  gone : ∀ blob ∈ goneOf held.phase, blob ∈ goneOf sweep.phase ∨
    blob ∈ Blob.chosen sweep.phase ∧ ¬ Fresh world sweep.now blob

theorem Moved.refl (sweep : Sweep Content) : Moved tables world sweep sweep where
  now := rfl
  next := fun _ _ h => .inl h
  scanned := fun _ h => ⟨h, fun _ hread => .inl hread⟩
  chosen := fun _ h => .inl h
  gone := fun _ h => .inl h

/-- What every step does to the rows, the list and the sweeps. -/
structure Carries (tables : Nat) (world next : World Content) : Prop where
  clock : world.clock ≤ next.clock
  row : ∀ blob, HasRow world blob → ∃ row, next.rows.get blob = some row
  created : ∀ blob row newer, HasRow world blob → world.rows.get blob = some row →
    next.rows.get blob = some newer → row.created ≤ newer.created
  candidates : ∀ blob first, next.candidates.get (.blob blob) = some first →
    world.candidates.get (.blob blob) = some first ∨
      ∃ id sweep, world.sweeps.get id = some sweep ∧ sweep.next.get (.blob blob) = some first
  sweeps : ∀ id held, next.sweeps.get id = some held →
    (∃ sweep, world.sweeps.get id = some sweep ∧ Moved tables world sweep held) ∨
      ∃ unused, held = ⟨world.clock, .empty, .empty, .scanning unused 0⟩

theorem Carries.hasRow (hcarries : Carries tables world next) (hstays : Stays world blob) :
    HasRow next blob := by
  refine ⟨hcarries.row blob hstays.row, ?_⟩
  rintro ⟨id, held, hheld, hgone⟩
  rcases hcarries.sweeps id held hheld with ⟨sweep, hsweep, hmoved⟩ | ⟨unused, rfl⟩
  · rcases hmoved.gone blob hgone with hwas | ⟨hchosen, hold⟩
    · exact hstays.row.2 ⟨id, sweep, hsweep, hwas⟩
    · exact hold (hstays.chosen id sweep hsweep hchosen)
  · cases hgone

theorem Carries.fresh (hcarries : Carries tables world next) (hrow : HasRow world blob) {now : Int}
    (hfresh : Fresh world now blob) : Fresh next now blob := by
  intro newer hnewer
  obtain ⟨row, hwas⟩ := hrow.1
  exact Int.le_trans (hfresh row hwas) (hcarries.created blob row newer hrow hwas hnewer)

theorem Carries.seen (hcarries : Carries tables world next) {limit : Int}
    (hlimit : limit < world.clock) (hseen : SeenUnnamed next blob limit) :
    SeenUnnamed world blob limit := by
  rcases hseen with ⟨first, hfirst, hold⟩ | ⟨held, hheld, hlisted⟩
  · rcases hcarries.candidates blob first hfirst with hwas | ⟨id, sweep, hsweep, hnext⟩
    · exact .inl ⟨first, hwas, hold⟩
    · exact .inr ⟨sweep, mem_values hsweep, .inl ⟨first, hnext, hold⟩⟩
  · obtain ⟨⟨id, _⟩, hrow, rfl⟩ := List.mem_map.mp hheld
    rcases hcarries.sweeps id _ (Table.mem_rows.mp hrow) with ⟨sweep, hsweep, hmoved⟩ | ⟨unused, rfl⟩
    · rcases hlisted with ⟨first, hfirst, hold⟩ | ⟨hscanned, hold⟩
      · rcases hmoved.next blob first hfirst with hwas | hwas | ⟨hscanned, rfl⟩
        · exact .inr ⟨sweep, mem_values hsweep, .inl ⟨first, hwas, hold⟩⟩
        · exact .inl ⟨first, hwas, hold⟩
        · exact .inr ⟨sweep, mem_values hsweep, .inr ⟨hscanned, hold⟩⟩
      · refine .inr ⟨sweep, mem_values hsweep, .inr ⟨(hmoved.scanned blob hscanned).1, ?_⟩⟩
        exact hmoved.now ▸ hold
    · rcases hlisted with ⟨first, hfirst, _⟩ | ⟨_, hold⟩
      · cases hfirst
      · exact absurd hlimit (Int.not_lt.mpr hold)

/-- No sweep that could not take a named blob comes to be able to. -/
theorem Carries.spared (hcarries : Carries tables world next) (hsound : Sound layout world)
    {name : Nat × BlobId} (hname : name ∈ world.names) (htable : name.1 < tables)
    (hrow : HasRow world name.2)
    (hspared : ∀ id sweep, world.sweeps.get id = some sweep → ¬ MayTake world name.1 name.2 sweep)
    {id : Nat} {held : Sweep Content} (hheld : next.sweeps.get id = some held) :
    ¬ MayTake next name.1 name.2 held := by
  rintro ⟨hold, htakes⟩
  rcases hcarries.sweeps id held hheld with ⟨sweep, hsweep, hmoved⟩ | ⟨unused, rfl⟩
  · have hwasOld : ¬ Fresh world sweep.now name.2 := fun hfresh =>
      hold (hmoved.now ▸ hcarries.fresh hrow hfresh)
    apply hspared id sweep hsweep
    refine ⟨hwasOld, ?_⟩
    rcases htakes with hchosen | ⟨hread, hscanned, hseen⟩
    · rcases hmoved.chosen name.2 hchosen with hwas | ⟨hscanned, hread, hlisted⟩
      · exact .inl hwas
      · exact .inr ⟨hread name.1 htable, hscanned, .inl hlisted⟩
    · obtain ⟨hwas, hreading⟩ := hmoved.scanned name.2 hscanned
      have hread := (hreading name.1 hread).resolve_right (fun hnot => hnot hname)
      have hnow := (hsound.sweeps id sweep hsweep).now
      refine .inr ⟨hread, hwas, hcarries.seen ?_ (hmoved.now ▸ hseen)⟩
      simp only [blobGraceDelete]
      omega
  · rcases htakes with hchosen | ⟨hread, _⟩
    · cases hchosen
    · exact absurd hread (Nat.not_lt_zero _)

/-- Within the hour, a guarded blob is chosen by no sweep that does not find it put again. -/
theorem Carries.stays (hcarries : Carries tables world next) (hsound : Sound layout world)
    {time : Int} (hrecent : world.clock - time ≤ blobGrace) (hstays : Stays world blob)
    (hguarded : Guarded world blob time) : Stays next blob := by
  refine ⟨hcarries.hasRow hstays, fun id held hheld hchosen => ?_⟩
  rcases hcarries.sweeps id held hheld with ⟨sweep, hsweep, hmoved⟩ | ⟨unused, rfl⟩
  · rw [hmoved.now]
    apply hcarries.fresh hstays.row
    rcases hmoved.chosen blob hchosen with hwas | ⟨_, _, first, hfirst, hday⟩
    · exact hstays.chosen id sweep hsweep hwas
    · have hnow := (hsound.sweeps id sweep hsweep).now
      rcases hguarded with hcreated | hunseen
      · intro row hrow
        have := hcreated row hrow
        omega
      · exfalso
        apply hunseen
        refine .inl ⟨first, hfirst, ?_⟩
        omega
  · cases hchosen

theorem Carries.guarded (hcarries : Carries tables world next) {time : Int} (hrow : HasRow world blob)
    (hpast : time ≤ world.clock) (hguarded : Guarded world blob time) : Guarded next blob time := by
  rcases hguarded with hcreated | hunseen
  · left
    intro newer hnewer
    obtain ⟨row, hwas⟩ := hrow.1
    exact Int.le_trans (hcreated row hwas) (hcarries.created blob row newer hrow hwas hnewer)
  · right
    refine fun hseen => hunseen (hcarries.seen ?_ hseen)
    simp only [blobGrace, blobGraceDelete]
    omega

/-- What is wanted stays so at a step, where what the step itself names, unnames or returns is. -/
theorem wanted_of (hwanted : Wanted tables world) (hsound : Sound layout world)
    (hcarries : Carries tables world next)
    (hnames : ∀ name ∈ next.names, name ∈ world.names ∨ name.1 < tables ∧ HasRow next name.2 ∧
      ∀ id sweep, next.sweeps.get id = some sweep → ¬ MayTake next name.1 name.2 sweep)
    (hmarks : ∀ blob time, (blob, time) ∈ next.returned ++ next.dropped →
      (blob, time) ∈ world.returned ++ world.dropped ∨
        time ≤ next.clock ∧ Stays next blob ∧ Guarded next blob time) :
    Wanted tables next where
  named := by
    intro name hname
    rcases hnames name hname with hwas | hnew
    · obtain ⟨htable, hrow, hspared⟩ := hwanted.named name hwas
      exact ⟨htable, hcarries.hasRow (hwanted.stays hwas), fun id held hheld =>
        hcarries.spared hsound hwas htable hrow hspared hheld⟩
    · exact hnew
  marked := by
    intro blob time hmark
    rcases hmarks blob time hmark with hwas | ⟨hpast, hkept⟩
    · obtain ⟨hpast, hkept⟩ := hwanted.marked blob time hwas
      refine ⟨Int.le_trans hpast hcarries.clock, fun hrecent => ?_⟩
      have hwasRecent : world.clock - time ≤ blobGrace := by
        have hclock := hcarries.clock
        omega
      obtain ⟨hstays, hguarded⟩ := hkept hwasRecent
      exact ⟨hcarries.stays hsound hwasRecent hstays hguarded,
        hcarries.guarded hstays.row hpast hguarded⟩
    · exact ⟨hpast, fun _ => hkept⟩

/-! ## Sweeps -/

/-- What a step of one sweep leaves as it was, and how the sweep moved on, if it goes on. -/
structure Swept (tables : Nat) (world next : World Content) (id : Nat) (sweep : Sweep Content) :
    Prop where
  clock : next.clock = world.clock
  names : next.names = world.names
  returned : next.returned = world.returned
  dropped : next.dropped = world.dropped
  rows : ∀ blob, blob ∉ goneOf sweep.phase → next.rows.get blob = world.rows.get blob
  candidates : ∀ blob first, next.candidates.get (.blob blob) = some first →
    world.candidates.get (.blob blob) = some first ∨ sweep.next.get (.blob blob) = some first
  sweeps : ∀ other held, next.sweeps.get other = some held →
    world.sweeps.get other = some held ∨ other = id ∧ Moved tables world sweep held

variable {id : Nat}

theorem Swept.carries (hswept : Swept tables world next id sweep)
    (hsweep : world.sweeps.get id = some sweep) : Carries tables world next := by
  have hrows : ∀ blob, HasRow world blob → next.rows.get blob = world.rows.get blob := by
    intro blob hrow
    apply hswept.rows blob
    exact fun hgone => hrow.2 ⟨id, sweep, hsweep, hgone⟩
  constructor
  · exact Int.le_of_eq hswept.clock.symm
  · intro blob hrow
    rw [hrows blob hrow]
    exact hrow.1
  · intro blob row newer hrow hwas hnewer
    rw [hrows blob hrow, hwas] at hnewer
    cases hnewer
    exact Int.le_refl _
  · intro blob first hfirst
    exact (hswept.candidates blob first hfirst).imp_right fun hnext => ⟨id, sweep, hsweep, hnext⟩
  · intro other held hheld
    left
    rcases hswept.sweeps other held hheld with hwas | ⟨rfl, hmoved⟩
    · exact ⟨held, hwas, Moved.refl held⟩
    · exact ⟨sweep, hsweep, hmoved⟩

theorem wanted_swept (hwanted : Wanted tables world) (hsound : Sound layout world)
    (hsweep : world.sweeps.get id = some sweep) (hswept : Swept tables world next id sweep) :
    Wanted tables next := by
  apply wanted_of hwanted hsound (hswept.carries hsweep)
  · intro name hname
    exact .inl (hswept.names ▸ hname)
  · intro blob time hmark
    rw [hswept.returned, hswept.dropped] at hmark
    exact .inl hmark

/-- A sweep moves on: the rows, the list and the other sweeps are as they were. -/
theorem swept_set (held : Sweep Content) (hclock : next.clock = world.clock)
    (hnames : next.names = world.names) (hreturned : next.returned = world.returned)
    (hdropped : next.dropped = world.dropped) (hrows : next.rows = world.rows)
    (hcandidates : next.candidates = world.candidates)
    (hsweeps : next.sweeps = world.sweeps.set id held) (hmoved : Moved tables world sweep held) :
    Swept tables world next id sweep where
  clock := hclock
  names := hnames
  returned := hreturned
  dropped := hdropped
  rows := fun _ _ => by rw [hrows]
  candidates := fun _ _ hfirst => .inl (hcandidates ▸ hfirst)
  sweeps := by
    intro other was hwas
    rw [hsweeps, Table.get_set] at hwas
    split at hwas
    · next hother =>
        cases hwas
        exact .inr ⟨hother, hmoved⟩
    · exact .inl hwas

theorem swept_erase (hclock : next.clock = world.clock) (hnames : next.names = world.names)
    (hreturned : next.returned = world.returned) (hdropped : next.dropped = world.dropped)
    (hrows : next.rows = world.rows)
    (hcandidates : next.candidates = world.candidates ∨ next.candidates = sweep.next)
    (hsweeps : next.sweeps = world.sweeps.erase id) : Swept tables world next id sweep where
  clock := hclock
  names := hnames
  returned := hreturned
  dropped := hdropped
  rows := fun _ _ => by rw [hrows]
  candidates := by
    intro blob first hfirst
    rcases hcandidates with hsame | hkept
    · exact .inl (hsame ▸ hfirst)
    · exact .inr (hkept ▸ hfirst)
  sweeps := by
    intro other held hheld
    rw [hsweeps, Table.get_erase] at hheld
    split at hheld
    · cases hheld
    · exact .inl hheld

/-- A sweep that scans, chooses and deletes nothing. -/
theorem moved_quiet {held : Sweep Content} (hnow : held.now = sweep.now)
    (hnext : ∀ blob first, held.next.get (.blob blob) = some first →
      sweep.next.get (.blob blob) = some first)
    (hscanned : scanned held.phase = []) (hchosen : chosen held.phase = [])
    (hgone : goneOf held.phase = []) : Moved tables world sweep held where
  now := hnow
  next := fun blob first hfirst => .inl (hnext blob first hfirst)
  scanned := fun blob hblob => by
    rw [hscanned] at hblob
    cases hblob
  chosen := fun blob hblob => by
    rw [hchosen] at hblob
    cases hblob
  gone := fun blob hblob => by
    rw [hgone] at hblob
    cases hblob

section Phases

variable {unused : List (BlobId × Row Content)} {table : Nat}

theorem moved_scan (hphase : sweep.phase = .scanning unused table) :
    Moved tables world sweep { sweep with
      phase := .scanning (unused.filter fun row => (table, row.1) ∉ world.names) (table + 1) } where
  now := rfl
  next := fun _ _ h => .inl h
  scanned := by
    intro blob hblob
    obtain ⟨row, hrow, rfl⟩ := List.mem_map.mp hblob
    obtain ⟨hunused, hunnamed⟩ := List.mem_filter.mp hrow
    rw [hphase]
    refine ⟨List.mem_map_of_mem hunused, fun other hother => ?_⟩
    rcases Nat.lt_or_eq_of_le (Nat.le_of_lt_succ hother) with hread | rfl
    · exact .inl hread
    · exact .inr (by simpa using hunnamed)
  chosen := fun _ h => (by cases h)
  gone := fun _ h => (by cases h)

theorem waitAll_get {now first : Int} {before : Table Candidate Int}
    (h : (waitAll now before unused).get (.blob blob) = some first) :
    before.get (.blob blob) = some first ∨ blob ∈ unused.map Prod.fst ∧ first = now := by
  induction unused with
  | nil => cases h
  | cons row rest ih =>
    have hrest : (waitAll now before rest).get (.blob blob) = some first →
        before.get (.blob blob) = some first ∨ blob ∈ (row :: rest).map Prod.fst ∧ first = now :=
      fun hlisted => (ih hlisted).imp_right fun hin => ⟨.tail _ hin.1, hin.2⟩
    unfold waitAll at h
    split at h
    · exact hrest h
    · unfold wait at h
      rw [Table.get_set] at h
      split at h
      · next hsame =>
          obtain rfl : blob = row.1 := Candidate.blob.inj hsame
          cases hwas : before.get (.blob row.1) with
          | some seen =>
            rw [hwas] at h
            exact .inl h
          | none =>
            rw [hwas] at h
            cases h
            exact .inr ⟨.head _, rfl⟩
      · exact hrest h

theorem isRipe_iff {now : Int} {before : Table Candidate Int} {what : Candidate} :
    isRipe now before what = true ↔ ∃ first ∈ before.get what, first ≤ now - blobGraceDelete := by
  unfold isRipe
  cases before.get what <;> simp

theorem moved_sift (hphase : sweep.phase = .scanning unused table)
    (hdone : unused = [] ∨ table = tables) (phase : Phase Content)
    (hsifted : phase = .dropping [] ∨
      phase = .ripe (unused.filter fun row => isRipe sweep.now world.candidates (.blob row.1))) :
    Moved tables world sweep { sweep with
      before := world.candidates
      next := waitAll sweep.now world.candidates unused
      phase := phase } where
  now := rfl
  next := by
    intro blob first hfirst
    rw [hphase]
    exact .inr (waitAll_get hfirst)
  scanned := by
    rcases hsifted with rfl | rfl <;> exact fun _ h => (by cases h)
  chosen := by
    rcases hsifted with rfl | rfl
    · exact fun _ h => (by cases h)
    · intro blob hblob
      obtain ⟨row, hrow, rfl⟩ := List.mem_map.mp hblob
      obtain ⟨hunused, hripe⟩ := List.mem_filter.mp hrow
      have hall : table = tables := hdone.resolve_left (List.ne_nil_of_mem hunused)
      rw [hphase]
      exact .inr ⟨List.mem_map_of_mem hunused, fun other hother => hall ▸ hother,
        isRipe_iff.mp hripe⟩
  gone := by
    rcases hsifted with rfl | rfl <;> exact fun _ h => (by cases h)

theorem moved_delete {row : BlobId × Row Content} {todo : List (BlobId × Row Content)}
    {gone goneNext : List BlobId} {aside : List String}
    (hphase : sweep.phase = .deleting (row :: todo) gone aside)
    (hgone : goneNext = gone ∨ goneNext = gone ++ [row.1] ∧ ¬ Fresh world sweep.now row.1)
    (asideNext : List String) :
    Moved tables world sweep { sweep with phase := .deleting todo goneNext asideNext } where
  now := rfl
  next := fun _ _ h => .inl h
  scanned := fun _ h => (by cases h)
  chosen := by
    intro blob hblob
    rw [hphase]
    exact .inl (.tail _ hblob)
  gone := by
    intro blob hblob
    rw [hphase]
    rcases hgone with rfl | ⟨rfl, hold⟩
    · exact .inl hblob
    · rcases List.mem_append.mp hblob with hwas | hnew
      · exact .inl hwas
      · obtain rfl := List.mem_singleton.mp hnew
        exact .inr ⟨.head _, hold⟩

theorem swept_deleteRow {row : BlobId × Row Content} {todo : List (BlobId × Row Content)}
    {gone : List BlobId} {aside : List String}
    (hphase : sweep.phase = .deleting (row :: todo) gone aside) (fails : Bool) :
    Swept tables world (deleteRow world id sweep row todo gone aside fails) id sweep := by
  have hset : ∀ goneNext asideNext files asides,
      (goneNext = gone ∨ goneNext = gone ++ [row.1] ∧ ¬ Fresh world sweep.now row.1) →
      Swept tables world { world with
        files := files
        asides := asides
        sweeps := world.sweeps.set id
          { sweep with phase := .deleting todo goneNext asideNext } } id sweep :=
    fun goneNext asideNext _ _ hgone =>
      swept_set { sweep with phase := .deleting todo goneNext asideNext } rfl rfl rfl rfl rfl rfl rfl
        (moved_delete hphase hgone asideNext)
  unfold deleteRow
  split
  · exact hset gone aside world.files world.asides (.inl rfl)
  · next current hcurrent =>
      split
      · next hguard =>
          have hold : ¬ Fresh world sweep.now row.1 := by
            intro hfresh
            have hyoung := hfresh current hcurrent
            omega
          have hmore := fun asideNext files asides =>
            hset (gone ++ [row.1]) asideNext files asides (.inr ⟨rfl, hold⟩)
          split
          · exact hmore aside world.files world.asides
          · next rel _ =>
              split
              · exact hmore aside world.files world.asides
              · unfold World.setAside
                split
                · exact hmore (aside ++ [rel]) world.files world.asides
                · next modified _ =>
                    exact hmore (aside ++ [rel]) (world.files.erase rel)
                      (world.asides.set rel modified)
      · exact hset gone aside world.files world.asides (.inl rfl)

theorem swept_removeFile {named : List String} {item : Stored} {todo : List Stored} (fails : Bool) :
    Swept tables world (removeFile world id sweep named item todo fails) id sweep := by
  have hset : ∀ held files asides, held.now = sweep.now → held.phase = .removing named todo →
      (∀ blob first, held.next.get (.blob blob) = some first →
        sweep.next.get (.blob blob) = some first) →
      Swept tables world { world with
        files := files, asides := asides, sweeps := world.sweeps.set id held } id sweep := by
    intro held files asides hnow hphase hnext
    refine swept_set held rfl rfl rfl rfl rfl rfl rfl ?_
    apply moved_quiet hnow hnext <;> rw [hphase] <;> rfl
  have hmoved := fun files asides =>
    hset { sweep with phase := .removing named todo } files asides rfl rfl fun _ _ h => h
  unfold removeFile
  simp only
  split
  · exact hmoved world.files world.asides
  · cases item with
    | aside rel modified =>
      simp only
      split
      · exact hmoved world.files world.asides
      · split
        · unfold World.bringBack
          split
          · exact hmoved world.files world.asides
          · next time _ => exact hmoved (world.files.set rel time) (world.asides.erase rel)
        · exact hmoved world.files (world.asides.erase rel)
    | file rel modified =>
      simp only
      split
      · exact hmoved world.files world.asides
      · split
        · split
          · exact hmoved world.files world.asides
          · exact hmoved (world.files.erase rel) world.asides
        · refine hset _ world.files world.asides rfl rfl fun blob first hfirst => ?_
          simp only [wait] at hfirst
          rw [Table.get_set, if_neg (by simp)] at hfirst
          exact hfirst

/-- What bringing files back leaves as it was. -/
theorem bringBack_same (aside : List String) (world : World Content) :
    let back := aside.foldl World.bringBack world
    back.clock = world.clock ∧ back.names = world.names ∧ back.returned = world.returned ∧
      back.dropped = world.dropped ∧ back.rows = world.rows ∧
        back.candidates = world.candidates := by
  induction aside generalizing world with
  | nil => exact ⟨rfl, rfl, rfl, rfl, rfl, rfl⟩
  | cons rel rest ih =>
    simp only [List.foldl_cons, ih (world.bringBack rel)]
    unfold World.bringBack
    split <;> exact ⟨rfl, rfl, rfl, rfl, rfl, rfl⟩

end Phases

theorem swept_sweepStep {event : Event Content}
    (hstep : sweepStep tables world id sweep event = some next) :
    Swept tables world next id sweep := by
  have hset : ∀ held : Sweep Content, Moved tables world sweep held →
      Swept tables world { world with sweeps := world.sweeps.set id held } id sweep :=
    fun held hmoved => swept_set held rfl rfl rfl rfl rfl rfl rfl hmoved
  have hquiet : ∀ phase : Phase Content, scanned phase = [] → chosen phase = [] →
      goneOf phase = [] → Moved tables world sweep { sweep with phase := phase } :=
    fun phase hscanned hchosen hgone => moved_quiet rfl (fun _ _ h => h) hscanned hchosen hgone
  cases sweeps_of_sweepStep hstep with
  | scan hphase => exact hset _ (moved_scan hphase)
  | sift hphase hdone hripe hnext =>
    subst hripe
    exact hset _ (moved_sift hphase hdone _ hnext)
  | @begin _ unused hphase =>
    refine swept_set { sweep with phase := .deleting unused [] [] } rfl rfl rfl rfl rfl rfl rfl ?_
    refine ⟨rfl, fun _ _ h => .inl h, fun _ h => (by cases h), fun blob hblob => ?_,
      fun _ h => (by cases h)⟩
    rw [hphase]
    exact .inl hblob
  | @delete _ _ _ _ _ fails hphase => exact swept_deleteRow hphase fails
  | @commitSweep _ gone aside hphase =>
    obtain ⟨_, _, _, _, _, hcandidates, hsweeps⟩ := hset _ (hquiet (.dropping aside) rfl rfl rfl)
    refine ⟨rfl, rfl, rfl, rfl, fun blob hblob => ?_, hcandidates, hsweeps⟩
    rw [hphase] at hblob
    have hkept : blob ∉ gone := hblob
    cases hrow : world.rows.get blob <;> simp [hrow, hkept]
  | @rollback _ _ aside hphase =>
    obtain ⟨hclock, hnames, hreturned, hdropped, hrows, hcandidates⟩ := bringBack_same aside world
    exact swept_erase hclock hnames hreturned hdropped hrows (.inl hcandidates) rfl
  | @dropAside _ _ rest _ _ hphase =>
    exact swept_set _ rfl rfl rfl rfl rfl rfl rfl (hquiet (.dropping rest) rfl rfl rfl)
  | readPaths | list => exact hset _ (hquiet _ rfl rfl rfl)
  | @remove _ _ _ _ fails => exact swept_removeFile fails
  | keep => exact swept_erase rfl rfl rfl rfl rfl (.inr rfl) rfl
  | breaksOff | fails => exact swept_erase rfl rfl rfl rfl rfl (.inl rfl) rfl

/-! ## Puts and commits -/

/-- A step of no sweep: no row goes or grows older, and the list and the sweeps are as they were. -/
theorem carries_later (hclock : world.clock ≤ next.clock)
    (hrows : ∀ blob row, world.rows.get blob = some row →
      ∃ newer, next.rows.get blob = some newer ∧ row.created ≤ newer.created)
    (hcandidates : next.candidates = world.candidates) (hsweeps : next.sweeps = world.sweeps) :
    Carries tables world next where
  clock := hclock
  row := by
    rintro blob ⟨⟨row, hrow⟩, _⟩
    obtain ⟨newer, hnewer, _⟩ := hrows blob row hrow
    exact ⟨newer, hnewer⟩
  created := by
    intro blob row newer _ hrow hnewer
    obtain ⟨found, hfound, hlater⟩ := hrows blob row hrow
    rw [hfound] at hnewer
    cases hnewer
    exact hlater
  candidates := fun _ _ hfirst => .inl (hcandidates ▸ hfirst)
  sweeps := fun _ held hheld => .inl ⟨held, hsweeps ▸ hheld, Moved.refl held⟩

/-- A step that leaves the rows, the names, the list and the sweeps. -/
theorem wanted_same (hwanted : Wanted tables world) (hsound : Sound layout world)
    (hclock : world.clock ≤ next.clock) (hrows : next.rows = world.rows)
    (hcandidates : next.candidates = world.candidates) (hsweeps : next.sweeps = world.sweeps)
    (hnames : next.names = world.names) (hreturned : next.returned = world.returned)
    (hdropped : next.dropped = world.dropped) : Wanted tables next := by
  apply wanted_of hwanted hsound
  · apply carries_later hclock ?_ hcandidates hsweeps
    exact fun blob row hrow => ⟨row, hrows ▸ hrow, Int.le_refl _⟩
  · exact fun name hname => .inl (hnames ▸ hname)
  · intro blob time hmark
    rw [hreturned, hdropped] at hmark
    exact .inl hmark

theorem wanted_start (hwanted : Wanted tables world) (hsound : Sound layout world) :
    Wanted tables { world with
      sweeps := world.sweeps.set id
        ⟨world.clock, .empty, .empty, .scanning (unusedAt world) 0⟩ } := by
  apply wanted_of hwanted hsound
  · refine ⟨Int.le_refl _, fun _ hrow => hrow.1, ?_, fun _ _ h => .inl h, ?_⟩
    · intro blob row newer _ hrow hnewer
      obtain rfl : row = newer := Option.some.inj (hrow.symm.trans hnewer)
      exact Int.le_refl _
    · intro other held hheld
      rw [Table.get_set] at hheld
      split at hheld
      · cases hheld
        exact .inr ⟨_, rfl⟩
      · exact .inl ⟨held, hheld, Moved.refl held⟩
  · exact fun _ hname => .inl hname
  · exact fun _ _ hmark => .inl hmark

theorem wanted_commit (hwanted : Wanted tables world) (hsound : Sound layout world)
    {add remove : List (Nat × BlobId)} (hwriter : world.writer = none)
    (hadd : ∀ name ∈ add, name.1 < tables) (hapart : Apart layout world (.commit add remove)) :
    Wanted tables (world.rename (renamed world.names add remove)) := by
  obtain ⟨hstored, hunnamed⟩ := hapart
  apply wanted_of hwanted hsound
  · refine carries_later (Int.le_refl _) ?_ rfl rfl
    exact fun blob row hrow => ⟨row, hrow, Int.le_refl _⟩
  · intro name hname
    rcases List.mem_append.mp hname with hold | hnew
    · exact .inl (List.mem_filter.mp hold).1
    · obtain ⟨hrow, hspared⟩ := hstored name hnew
      exact .inr ⟨hadd name hnew,
        ⟨Table.contains_iff.mp hrow, not_isGone hsound hwriter name.2⟩,
        fun _ _ hsweep => hspared _ (mem_values hsweep)⟩
  · intro blob time hmark
    rcases List.mem_append.mp hmark with hreturned | hdropped
    · exact .inl (List.mem_append_left _ hreturned)
    · rcases List.mem_append.mp hdropped with hwas | hnew
      · exact .inl (List.mem_append_right _ hwas)
      · obtain ⟨left, hleft, hsame⟩ := List.mem_map.mp hnew
        cases hsame
        obtain ⟨name, hname, rfl⟩ := List.mem_map.mp (List.mem_filter.mp hleft).1
        have hstays := hwanted.stays hname
        exact .inr ⟨Int.le_refl _, ⟨hstays.row, hstays.chosen⟩, .inr (hunnamed name.2 hleft)⟩

variable {bytes : Content} {found : Option BlobId} {fresh : BlobId}

theorem wanted_recorded {row : Row Content} (hwanted : Wanted tables world)
    (hsound : Sound layout world) (hwriter : world.writer = none) (hrest : RowsOnly world next)
    (hrow : Recorded layout world next bytes blob row)
    (hguarded : row.created < world.clock → ¬ SoonDue world blob) :
    Wanted tables { next with puts := next.puts.erase id } := by
  apply wanted_of hwanted hsound
  · refine carries_later (Int.le_of_eq hrest.clock.symm) ?_ hrest.candidates hrest.sweeps
    intro other was hwas
    by_cases hother : other = blob
    · subst hother
      exact ⟨row, hrow.written, (hrow.was was hwas).2⟩
    · exact ⟨was, (hrow.others other hother).trans hwas, Int.le_refl _⟩
  · exact fun name hname => .inl (hrest.names ▸ hname)
  · intro other time hmark
    simp only [hrow.returned, hrest.dropped, List.append_assoc] at hmark
    rcases List.mem_append.mp hmark with hreturned | hmore
    · exact .inl (List.mem_append_left _ hreturned)
    rcases List.mem_append.mp hmore with hnew | hdropped
    · cases List.mem_singleton.mp hnew
      refine .inr ⟨Int.le_of_eq hrest.clock.symm, ⟨⟨⟨row, hrow.written⟩, ?_⟩, ?_⟩, ?_⟩
      · rintro ⟨sweeping, sweep, hsweep, hgone⟩
        simp only [hrest.sweeps] at hsweep
        exact not_isGone hsound hwriter blob ⟨sweeping, sweep, hsweep, hgone⟩
      · intro sweeping sweep hsweep _ held hheld
        simp only [hrest.sweeps] at hsweep
        obtain rfl : row = held := Option.some.inj (hrow.written.symm.trans hheld)
        have hnow := (hsound.sweeps sweeping sweep hsweep).now
        have hcreated := hrow.created
        simp only [refreshAfter, blobGrace] at hcreated ⊢
        omega
      · by_cases hold : row.created < world.clock
        · right
          have hunseen := hguarded hold
          unfold SoonDue at hunseen
          simpa only [SeenUnnamed, hrest.candidates, hrest.sweeps] using hunseen
        · left
          intro held hheld
          obtain rfl : row = held := Option.some.inj (hrow.written.symm.trans hheld)
          exact Int.not_lt.mp hold
    · exact .inl (List.mem_append_right _ hdropped)

theorem wanted_record (hwanted : Wanted tables world) (hsound : Sound layout world)
    (hput : world.puts.get id = some (.looked bytes found)) (hwriter : world.writer = none)
    (hfresh : found = none → world.rows.get fresh = none)
    (htimely : Timely layout world (.looked bytes found)) :
    Wanted tables { record layout world bytes found fresh with
      puts := (record layout world bytes found fresh).puts.erase id } := by
  have hrest := record_rest layout world bytes found fresh
  cases found with
  | some blob =>
    obtain ⟨row, hrow, hrecorded⟩ := record_found hsound hput fresh
    apply wanted_recorded hwanted hsound hwriter hrest hrecorded
    intro hold
    unfold Row.refresh at hold
    split at hold
    · exact absurd hold (Int.lt_irrefl _)
    · next hyoung => exact htimely row hrow (Int.not_lt.mp hyoung) hold
  | none =>
    apply wanted_recorded hwanted hsound hwriter hrest (record_new (hfresh rfl) bytes)
    exact fun hold => absurd hold (Int.lt_irrefl _)

/-! ## Runs -/

section Runs

variable [DecidableEq Content]

theorem wanted_step {event : Event Content} (hwanted : Wanted tables world)
    (hsound : Sound layout world) (hapart : Apart layout world event)
    (hstep : step layout tables world event = some next) : Wanted tables next := by
  have hsweeping : ∀ id,
      ((world.sweeps.get id).bind fun sweep => sweepStep tables world id sweep event) = some next →
      Wanted tables next := by
    intro id hbind
    obtain ⟨sweep, hsweep, hswept⟩ := Option.bind_eq_some_iff.mp hbind
    exact wanted_swept hwanted hsound hsweep (swept_sweepStep hswept)
  have hsame : next.clock = world.clock → next.rows = world.rows →
      next.candidates = world.candidates → next.sweeps = world.sweeps → next.names = world.names →
      next.returned = world.returned → next.dropped = world.dropped → Wanted tables next :=
    fun hclock => wanted_same hwanted hsound (Int.le_of_eq hclock.symm)
  cases event with
  | tick seconds =>
    cases hstep
    refine wanted_same hwanted hsound ?_ rfl rfl rfl rfl rfl rfl
    show world.clock ≤ world.clock + seconds
    omega
  | put id bytes =>
    simp only [step] at hstep
    split at hstep
    · cases hstep
      exact hsame rfl rfl rfl rfl rfl rfl rfl
    · cases hstep
  | place id =>
    obtain ⟨put, hput, hplaced⟩ := Option.bind_eq_some_iff.mp hstep
    cases put with
    | missing | present =>
      obtain ⟨rel, _, rfl⟩ := Option.map_eq_some_iff.mp hplaced
      exact hsame rfl rfl rfl rfl rfl rfl rfl
    | staged | looked => cases hplaced
  | look id found =>
    simp only [step] at hstep
    split at hstep
    · split at hstep
      · cases hstep
        exact hsame rfl rfl rfl rfl rfl rfl rfl
      · cases hstep
    · cases hstep
  | record id fresh =>
    simp only [step] at hstep
    split at hstep
    · next bytes found hput =>
        split at hstep
        · next hguard =>
            cases hstep
            exact wanted_record hwanted hsound hput hguard.1 hguard.2 (hapart _ hput)
        · cases hstep
    · cases hstep
  | fail id =>
    cases hstep
    exact hsame rfl rfl rfl rfl rfl rfl rfl
  | commit add remove =>
    simp only [step] at hstep
    split at hstep
    · next hguard =>
        cases hstep
        exact wanted_commit hwanted hsound hguard.1 hguard.2 hapart
    · cases hstep
  | sweep id =>
    simp only [step] at hstep
    split at hstep
    · cases hstep
      exact wanted_start hwanted hsound
    · cases hstep
  | scan id | sift id | begin id | delete id _ | commitSweep id | rollback id | dropAside id _
  | readPaths id | list id | remove id _ | keep id | failSweep id => exact hsweeping id hstep

theorem kept_run {last : World Content} {events : List (Event Content)}
    (hsound : Sound layout world) (hwanted : Wanted tables world)
    (hapart : ApartAll layout tables world events)
    (hrun : run layout tables world events = some last) :
    Sound layout last ∧ Wanted tables last := by
  induction events generalizing world with
  | nil =>
    cases hrun
    exact ⟨hsound, hwanted⟩
  | cons event rest ih =>
    simp only [run] at hrun
    obtain ⟨next, hstep, hrest⟩ := Option.bind_eq_some_iff.mp hrun
    exact ih (sound_step hsound hapart.1 hstep) (wanted_step hwanted hsound hapart.1 hstep)
      (hapart.2 next hstep) hrest

end Runs

theorem noneLost_of (hsound : Sound layout world) (hwanted : Wanted tables world) :
    NoneLost world := by
  intro blob hlive
  have hrow : HasRow world blob := by
    rcases hlive with ⟨time, hreturned, hrecent⟩ | ⟨table, hname⟩
    · exact ((hwanted.marked blob time (List.mem_append_left _ hreturned)).2 hrecent).1.row
    · exact (hwanted.stays hname).row
  obtain ⟨⟨row, hrow⟩, hgone⟩ := hrow
  exact ⟨row, hrow, fun rel hrel => hsound.files blob row rel hrow hgone hrel⟩

theorem takesUnnamed_of (hwanted : Wanted tables world) : TakesUnnamed world := by
  intro sweep hsweep blob hgone
  obtain ⟨⟨id, _⟩, hrow, rfl⟩ := List.mem_map.mp hsweep
  have hnot : ¬ HasRow world blob := fun hrow' => hrow'.2 ⟨id, _, Table.mem_rows.mp hrow, hgone⟩
  constructor
  · exact fun table hname => hnot (hwanted.stays hname).row
  · intro time hdropped
    by_contra hrecent
    have hmarked := hwanted.marked blob time (List.mem_append_right _ hdropped)
    exact hnot (hmarked.2 (Int.not_lt.mp hrecent)).1.row

/-- Where nothing falls between a sweep's last look and its taking, no stored blob is lost, and a sweep
takes none that is named or was within the hour. -/
theorem none_lost [DecidableEq Content] (clock : Int) (events : List (Event Content))
    (world : World Content) (hapart : ApartAll layout tables (World.start clock) events)
    (hrun : run layout tables (World.start clock) events = some world) :
    NoneLost world ∧ TakesUnnamed world := by
  obtain ⟨hsound, hwanted⟩ := kept_run (sound_empty clock) (wanted_empty clock) hapart hrun
  exact ⟨noneLost_of hsound hwanted, takesUnnamed_of hwanted⟩

end Wanting

/-! ## Runs on fixed inputs -/

/-- Put, unnamed, and seen so by a sweep. -/
def listedEvents : List (Event String) :=
  [.put 0 "old", .place 0, .look 0 none, .record 0 ⟨1⟩, .tick 7200,
    .sweep 9, .scan 9, .sift 9, .readPaths 9, .list 9, .remove 9 false, .keep 9]

/-- A day later one blob is swept; one put again after the scan is spared and named, and one is named
all along. -/
def sweptEvents : List (Event String) :=
  [.put 0 "kept", .place 0, .look 0 none, .record 0 ⟨2⟩, .commit [(0, ⟨2⟩)] [],
    .put 0 "again", .place 0, .look 0 none, .record 0 ⟨3⟩,
    .put 0 "old", .place 0, .look 0 none, .record 0 ⟨1⟩, .tick 7200,
    .sweep 9, .scan 9, .sift 9, .readPaths 9, .list 9, .remove 9 false, .remove 9 false,
    .remove 9 false, .keep 9, .tick 86400, .sweep 9, .scan 9, .sift 9,
    .put 0 "again", .place 0, .look 0 (some ⟨3⟩), .record 0 ⟨4⟩, .commit [(0, ⟨3⟩)] [],
    .begin 9, .delete 9 false, .delete 9 false, .commitSweep 9, .dropAside 9 false,
    .readPaths 9, .list 9, .remove 9 false, .remove 9 false, .keep 9]

theorem none_lost_swept :
    ∃ world, run ⟨fun _ => true, id⟩ 1 (World.start 0) sweptEvents = some world ∧
      world.rows.keys = [⟨2⟩, ⟨3⟩] ∧ NoneLost world ∧ TakesUnnamed world := by
  have hkeys : (run ⟨fun _ => true, id⟩ 1 (World.start 0) sweptEvents).map
      (fun world => world.rows.keys) = some [⟨2⟩, ⟨3⟩] := by
    decide +kernel
  obtain ⟨world, hrun, hleft⟩ := Option.map_eq_some_iff.mp hkeys
  exact ⟨world, hrun, hleft, none_lost 0 sweptEvents world (by decide +kernel) hrun⟩

def sweptUnder (between after : List (Event String)) : List (Event String) :=
  listedEvents ++ [.tick 86400, .sweep 9, .scan 9, .sift 9] ++ between ++
    [.begin 9, .delete 9 false, .commitSweep 9] ++ after

/-- A file that no row names, seen so a day before, and listed again. -/
def orphanEvents : List (Event String) :=
  [.put 0 "old", .place 0, .fail 0, .tick 7200,
    .sweep 9, .sift 9, .readPaths 9, .list 9, .remove 9 false, .keep 9, .tick 86400,
    .sweep 9, .sift 9, .readPaths 9, .list 9]

/-- Named between the scan and the delete; put between seeing the row, or the file, and recording it;
put while the row is being deleted; put again too soon to be said in use; put between the reading of the
paths and the removal, the row written or not; and set aside by a sweep that breaks off. -/
def lossyRuns : List (List (Event String)) :=
  [sweptUnder [.commit [(0, ⟨1⟩)] []] [],
    sweptUnder [.put 0 "old", .place 0, .look 0 (some ⟨1⟩)] [.record 0 ⟨2⟩],
    sweptUnder [.put 0 "old", .place 0] [.look 0 none, .record 0 ⟨2⟩],
    listedEvents ++ [.tick 86400, .sweep 9, .scan 9, .sift 9, .begin 9, .delete 9 false,
      .put 0 "old", .place 0, .look 0 (some ⟨1⟩), .commitSweep 9, .record 0 ⟨2⟩],
    listedEvents ++ [.tick 82740, .put 0 "old", .place 0, .look 0 (some ⟨1⟩), .record 0 ⟨2⟩,
      .tick 1740, .put 0 "old", .place 0, .look 0 (some ⟨1⟩), .record 0 ⟨2⟩,
      .tick 1920, .sweep 9, .scan 9, .sift 9, .begin 9, .delete 9 false, .commitSweep 9],
    orphanEvents ++ [.put 0 "old", .place 0, .look 0 none, .record 0 ⟨1⟩, .remove 9 false],
    orphanEvents ++ [.put 0 "old", .place 0, .remove 9 false, .look 0 none, .record 0 ⟨1⟩],
    -- A sweep drops late what it set aside; one whose transaction fails finds nothing to put back.
    listedEvents ++ [.tick 86400, .sweep 8, .scan 8, .sift 8, .begin 8, .delete 8 false,
      .commitSweep 8, .put 0 "old", .place 0, .look 0 none, .record 0 ⟨2⟩, .tick 7200,
      .sweep 9, .scan 9, .sift 9, .readPaths 9, .list 9, .remove 9 false, .remove 9 false, .keep 9,
      .tick 86400, .sweep 9, .scan 9, .sift 9, .begin 9, .delete 9 false, .dropAside 8 false,
      .rollback 9, .commit [(0, ⟨2⟩)] []],
    listedEvents ++ [.tick 86400, .sweep 9, .scan 9, .sift 9, .begin 9, .delete 9 false,
      .failSweep 9, .commit [(0, ⟨1⟩)] []]]

/-- Named by a row, and no longer, between two sweeps. -/
def droppedEvents : List (Event String) :=
  listedEvents ++ [.tick 86400, .commit [(0, ⟨1⟩)] [], .commit [] [(0, ⟨1⟩)],
    .sweep 9, .scan 9, .sift 9, .begin 9, .delete 9 false]

def loses (world : World String) (blob : BlobId) : Bool :=
  (world.returned.any (fun mark => mark.1 = blob ∧ world.clock - mark.2 ≤ blobGrace) ||
    world.names.any fun name => name.2 = blob) &&
  match world.rows.get blob with
  | none => true
  | some row => row.path.any fun rel => !world.files.contains rel

theorem not_noneLost_of_loses {world : World String} {blob : BlobId} (h : loses world blob = true) :
    ¬ NoneLost world := by
  intro hkept
  simp only [loses, Bool.and_eq_true, Bool.or_eq_true, List.any_eq_true, decide_eq_true_eq] at h
  obtain ⟨hlive, hmissing⟩ := h
  obtain ⟨row, hrow, hfile⟩ := hkept blob <| by
    rcases hlive with ⟨⟨_, time⟩, hmark, rfl, hrecent⟩ | ⟨⟨table, _⟩, hname, rfl⟩
    · exact .inl ⟨time, hmark, hrecent⟩
    · exact .inr ⟨table, hname⟩
  rw [hrow] at hmissing
  cases hpath : row.path with
  | none => simp [hpath] at hmissing
  | some rel => simp [hpath, hfile rel hpath] at hmissing

/-- In each of these runs a blob that a put returned within the hour, or that a row names, is lost; and
in the last a sweep takes one that was named just before. -/
theorem taken_in_use :
    (∀ events ∈ lossyRuns, ∃ world,
      run ⟨fun _ => true, id⟩ 1 (World.start 0) events = some world ∧ ¬ NoneLost world) ∧
    ∃ world, run ⟨fun _ => true, id⟩ 1 (World.start 0) droppedEvents = some world ∧
      ¬ TakesUnnamed world := by
  constructor
  · have hloses : (lossyRuns.all fun events =>
        (run ⟨fun _ => true, id⟩ 1 (World.start 0) events).any fun world =>
          loses world ⟨1⟩ || loses world ⟨2⟩) = true := by
      decide +kernel
    intro events hevents
    have hlost := List.all_eq_true.mp hloses events hevents
    obtain ⟨world, hrun, hworld⟩ := (Option.any_eq_true _ _).mp hlost
    refine ⟨world, hrun, ?_⟩
    rcases (Bool.or_eq_true _ _).mp hworld with hfirst | hsecond
    · exact not_noneLost_of_loses hfirst
    · exact not_noneLost_of_loses hsecond
  · have htakes : (run ⟨fun _ => true, id⟩ 1 (World.start 0) droppedEvents).any (fun world =>
        world.sweeps.values.any fun sweep => (goneOf sweep.phase).any fun blob =>
          world.dropped.any fun mark => mark.1 = blob ∧ world.clock - mark.2 ≤ blobGrace) =
        true := by
      decide +kernel
    obtain ⟨world, hrun, hworld⟩ := (Option.any_eq_true _ _).mp htakes
    refine ⟨world, hrun, fun hunnamed => ?_⟩
    simp only [List.any_eq_true, decide_eq_true_eq] at hworld
    obtain ⟨sweep, hsweep, blob, hblob, ⟨_, time⟩, hmark, rfl, hrecent⟩ := hworld
    have hlong := (hunnamed sweep hsweep _ hblob).2 time hmark
    omega

end Mailo.Store.Blob
