import Mailo.Store.Blob.Sweep

/-!
# A row keeps its file

Which steps fall between a sweep's last look at a blob and its taking it. In a run with no such step,
every row that no sweep is deleting has its file, and every put has the one it counts on.
-/

namespace Mailo.Store.Blob

open Domain Library

variable {Content : Type}

/-! ## Runs in which nothing falls between -/

def HoldsFile (layout : Layout Content) (rel : String) : Put Content → Prop
  | .missing _ => False
  | .present bytes | .staged bytes | .looked bytes _ => layout.path bytes = some rel

instance (layout : Layout Content) (rel : String) (put : Put Content) :
    Decidable (HoldsFile layout rel put) := by
  cases put <;> unfold HoldsFile <;> infer_instance

def HoldsRow (blob : BlobId) : Put Content → Prop
  | .looked _ found => found = some blob
  | _ => False

instance (blob : BlobId) (put : Put Content) : Decidable (HoldsRow blob put) := by
  cases put <;> unfold HoldsRow <;> infer_instance

/-- The rows an open transaction has deleted. -/
def goneOf : Phase Content → List BlobId
  | .deleting _ gone _ => gone
  | _ => []

/-- What a sweep is about to take. -/
def chosen : Phase Content → List BlobId
  | .ripe unused | .deleting unused _ _ => unused.map Prod.fst
  | _ => []

/-- What a scan has found unnamed so far. -/
def scanned : Phase Content → List BlobId
  | .scanning unused _ => unused.map Prod.fst
  | _ => []

def HasRead (table : Nat) : Phase Content → Prop
  | .scanning _ reached => table < reached
  | _ => True

instance (table : Nat) (phase : Phase Content) : Decidable (HasRead table phase) := by
  cases phase <;> unfold HasRead <;> infer_instance

/-- Put too lately for a sweep that began at `now` to take. -/
def Fresh (world : World Content) (now : Int) (blob : BlobId) : Prop :=
  ∀ row ∈ world.rows.get blob, now - blobGrace ≤ row.created

instance (world : World Content) (now : Int) (blob : BlobId) : Decidable (Fresh world now blob) := by
  unfold Fresh
  infer_instance

/-- On a list as unnamed since `limit` or before, or about to be put on one so. -/
def SeenUnnamed (world : World Content) (blob : BlobId) (limit : Int) : Prop :=
  (∃ first ∈ world.candidates.get (.blob blob), first ≤ limit) ∨
    ∃ sweep ∈ world.sweeps.values,
      (∃ first ∈ sweep.next.get (.blob blob), first ≤ limit) ∨
        blob ∈ scanned sweep.phase ∧ sweep.now ≤ limit

instance (world : World Content) (blob : BlobId) (limit : Int) :
    Decidable (SeenUnnamed world blob limit) := by
  unfold SeenUnnamed
  infer_instance

/-- Seen unnamed so long ago that a sweep of the next hour could take it. -/
def SoonDue (world : World Content) (blob : BlobId) : Prop :=
  SeenUnnamed world blob (world.clock + blobGrace - blobGraceDelete)

instance (world : World Content) (blob : BlobId) : Decidable (SoonDue world blob) := by
  unfold SoonDue
  infer_instance

/-- A sweep that has read the table could still take the blob. -/
def MayTake (world : World Content) (table : Nat) (blob : BlobId) (sweep : Sweep Content) : Prop :=
  ¬ Fresh world sweep.now blob ∧ (blob ∈ chosen sweep.phase ∨
    HasRead table sweep.phase ∧ blob ∈ scanned sweep.phase ∧
      SeenUnnamed world blob (sweep.now - blobGraceDelete))

instance (world : World Content) (table : Nat) (blob : BlobId) (sweep : Sweep Content) :
    Decidable (MayTake world table blob sweep) := by
  unfold MayTake
  infer_instance

/-- A copy of a file, in place or aside, not written since `limit`. -/
def OldCopy (files asides : Table String Int) (rel : String) (limit : Int) : Prop :=
  (∃ modified ∈ files.get rel, modified ≤ limit) ∨ ∃ modified ∈ asides.get rel, modified ≤ limit

instance (files asides : Table String Int) (rel : String) (limit : Int) :
    Decidable (OldCopy files asides rel limit) := by
  unfold OldCopy
  infer_instance

/-- A sweep that has read the paths is to remove the file, or will be once it lists an old copy. -/
def Removes (files asides : Table String Int) (sweep : Sweep Content) (rel : String) : Prop :=
  isRipe sweep.now sweep.before (.file rel) = true ∧
    match sweep.phase with
    | .listing named => rel ∉ named ∧ OldCopy files asides rel (sweep.now - blobGrace)
    | .removing named todo =>
      rel ∉ named ∧
        ∃ item ∈ todo, item = .file rel item.modified ∧ item.modified ≤ sweep.now - blobGrace
    | _ => False

instance (files asides : Table String Int) (sweep : Sweep Content) (rel : String) :
    Decidable (Removes files asides sweep rel) := by
  unfold Removes
  cases sweep.phase <;> infer_instance

/-- No put counts on the row, nor on its file where the file goes with it. -/
def Unheld (layout : Layout Content) (world : World Content) (row : BlobId × Row Content)
    (gone : List BlobId) (fails : Bool) : Prop :=
  ∀ put ∈ world.puts.values, ¬ HoldsRow row.1 put ∧
    ∀ rel ∈ row.2.path, shared world.rows (gone ++ [row.1]) rel = false → fails = false →
      ¬ HoldsFile layout rel put

instance (layout : Layout Content) (world : World Content) (row : BlobId × Row Content)
    (gone : List BlobId) (fails : Bool) : Decidable (Unheld layout world row gone fails) := by
  unfold Unheld
  infer_instance

/-- The row a sweep comes to is not counted on where it deletes it. -/
def SparesRow (layout : Layout Content) (world : World Content) (sweep : Sweep Content)
    (fails : Bool) : Phase Content → Prop
  | .deleting (row :: _) gone _ =>
    row.1 ∉ gone → ¬ Fresh world sweep.now row.1 → Unheld layout world row gone fails
  | _ => True

instance (layout : Layout Content) (world : World Content) (sweep : Sweep Content) (fails : Bool)
    (phase : Phase Content) : Decidable (SparesRow layout world sweep fails phase) := by
  unfold SparesRow
  split <;> infer_instance

/-- The file a sweep comes to is counted on by no put where it removes it. -/
def SparesFile (layout : Layout Content) (world : World Content) (sweep : Sweep Content)
    (fails : Bool) : Phase Content → Prop
  | .removing named (.file rel modified :: _) =>
    modified ≤ sweep.now - blobGrace → rel ∉ named →
      isRipe sweep.now sweep.before (.file rel) = true → fails = false →
        ∀ put ∈ world.puts.values, ¬ HoldsFile layout rel put
  | _ => True

instance (layout : Layout Content) (world : World Content) (sweep : Sweep Content) (fails : Bool)
    (phase : Phase Content) : Decidable (SparesFile layout world sweep fails phase) := by
  unfold SparesFile
  split <;> infer_instance

def StillAside (world : World Content) : Phase Content → Prop
  | .deleting _ _ aside =>
    ∀ rel ∈ aside, world.files.contains rel = true ∨ world.asides.contains rel = true
  | _ => True

instance (world : World Content) (phase : Phase Content) : Decidable (StillAside world phase) := by
  cases phase <;> unfold StillAside <;> infer_instance

/-- What an open transaction set aside is in place again. -/
def InPlace (world : World Content) : Phase Content → Prop
  | .deleting _ _ aside => ∀ rel ∈ aside, world.files.contains rel = true
  | _ => True

instance (world : World Content) (phase : Phase Content) : Decidable (InPlace world phase) := by
  cases phase <;> unfold InPlace <;> infer_instance

/-- A new row's file is not one a sweep is to remove; a row found that is too young to be said in use
again, and older than this put, is not soon due. -/
def Timely (layout : Layout Content) (world : World Content) : Put Content → Prop
  | .looked bytes none =>
    ∀ rel ∈ layout.path bytes, ∀ sweep ∈ world.sweeps.values,
      ¬ Removes world.files world.asides sweep rel
  | .looked _ (some blob) =>
    ∀ row ∈ world.rows.get blob, world.clock - refreshAfter ≤ row.created →
      row.created < world.clock → ¬ SoonDue world blob
  | _ => True

instance (layout : Layout Content) (world : World Content) (put : Put Content) :
    Decidable (Timely layout world put) := by
  unfold Timely
  split <;> infer_instance

/-- Nothing falls between a sweep's last look and its taking. -/
def Apart (layout : Layout Content) (world : World Content) : Event Content → Prop
  | .commit add remove =>
    (∀ name ∈ add, world.rows.contains name.2 = true ∧
      ∀ sweep ∈ world.sweeps.values, ¬ MayTake world name.1 name.2 sweep) ∧
    ∀ blob ∈ unnamed world.names (renamed world.names add remove), ¬ SoonDue world blob
  | .look _ found =>
    ∀ blob ∈ found, ∀ sweep ∈ world.sweeps.values, blob ∉ goneOf sweep.phase
  | .record id _ => ∀ put ∈ world.puts.get id, Timely layout world put
  | .delete id fails =>
    ∀ sweep ∈ world.sweeps.get id, SparesRow layout world sweep fails sweep.phase
  | .remove id fails =>
    ∀ sweep ∈ world.sweeps.get id, SparesFile layout world sweep fails sweep.phase
  | .rollback id => ∀ sweep ∈ world.sweeps.get id, StillAside world sweep.phase
  | .failSweep id => ∀ sweep ∈ world.sweeps.get id, InPlace world sweep.phase
  | _ => True

instance (layout : Layout Content) (world : World Content) (event : Event Content) :
    Decidable (Apart layout world event) := by
  cases event <;> unfold Apart <;> infer_instance

def ApartAll [DecidableEq Content] (layout : Layout Content) (tables : Nat) (world : World Content) :
    List (Event Content) → Prop
  | [] => True
  | event :: rest =>
    Apart layout world event ∧
      ∀ next ∈ step layout tables world event, ApartAll layout tables next rest

instance decidableApartAll [DecidableEq Content] (layout : Layout Content) (tables : Nat) :
    (events : List (Event Content)) → (world : World Content) →
      Decidable (ApartAll layout tables world events)
  | [], _ => .isTrue trivial
  | event :: rest, world =>
    have : DecidablePred fun next => ApartAll layout tables next rest :=
      decidableApartAll layout tables rest
    inferInstanceAs (Decidable (Apart layout world event ∧
      ∀ next ∈ step layout tables world event, ApartAll layout tables next rest))

def HasBytes (world : World Content) (blob : BlobId) : Prop :=
  ∃ row, world.rows.get blob = some row ∧ ∀ rel ∈ row.path, world.files.contains rel = true

/-- Every blob a put returned within the hour, and every blob a row names, is stored. -/
def NoneLost (world : World Content) : Prop :=
  ∀ blob, (∃ time, (blob, time) ∈ world.returned ∧ world.clock - time ≤ blobGrace) ∨
      (∃ table, (table, blob) ∈ world.names) → HasBytes world blob

/-- What a sweep is deleting no row names, nor did within the hour. -/
def TakesUnnamed (world : World Content) : Prop :=
  ∀ sweep ∈ world.sweeps.values, ∀ blob ∈ goneOf sweep.phase,
    (∀ table, (table, blob) ∉ world.names) ∧
      ∀ time, (blob, time) ∈ world.dropped → blobGrace < world.clock - time

variable {layout : Layout Content} {tables : Nat}

/-- A row an open transaction has deleted: others still read it. -/
def IsGone (world : World Content) (blob : BlobId) : Prop :=
  ∃ id sweep, world.sweeps.get id = some sweep ∧ blob ∈ goneOf sweep.phase

/-- A row that is there and that no open transaction has deleted. -/
def HasRow (world : World Content) (blob : BlobId) : Prop :=
  (∃ row, world.rows.get blob = some row) ∧ ¬ IsGone world blob

/-! ## Files -/

/-- What holds of a sweep: it removes no row's file, and while its transaction is open what it deleted
has its file, in place or among those it set aside. -/
structure SweepSound (world : World Content) (id : Nat) (sweep : Sweep Content) : Prop where
  now : sweep.now ≤ world.clock
  spares : ∀ blob row rel, world.rows.get blob = some row → row.path = some rel →
    ¬ Removes world.files world.asides sweep rel
  writes : ∀ todo gone aside, sweep.phase = .deleting todo gone aside →
    world.writer = some id ∧ ∀ blob ∈ gone, ∀ row, world.rows.get blob = some row →
      ∀ rel ∈ row.path, world.files.contains rel = true ∨ rel ∈ aside

structure Sound (layout : Layout Content) (world : World Content) : Prop where
  paths : ∀ blob row, world.rows.get blob = some row → row.path = layout.path row.hash
  files : ∀ blob row rel, world.rows.get blob = some row → ¬ IsGone world blob →
    row.path = some rel → world.files.contains rel = true
  puts : ∀ id put rel, world.puts.get id = some put → HoldsFile layout rel put →
    world.files.contains rel = true
  looked : ∀ id bytes blob, world.puts.get id = some (.looked bytes (some blob)) →
    HasRow world blob ∧ ∀ row, world.rows.get blob = some row → row.hash = bytes
  sweeps : ∀ id sweep, world.sweeps.get id = some sweep → SweepSound world id sweep

theorem sound_empty (clock : Int) : Sound layout (World.start clock) where
  paths := by intro _ _ h; cases h
  files := by intro _ _ _ h; cases h
  puts := by intro _ _ _ h; cases h
  looked := by intro _ _ _ h; cases h
  sweeps := by intro _ _ h; cases h

variable {world next : World Content} {id : Nat} {sweep : Sweep Content}
variable {aside : List String} {gone : List BlobId} {todo : List (BlobId × Row Content)}
  {fresh : BlobId}

theorem mem_values {κ α : Type} [DecidableEq κ] {table : Table κ α} {key : κ} {value : α}
    (h : table.get key = some value) : value ∈ table.values :=
  List.mem_map.mpr ⟨(key, value), Table.mem_rows.mpr h, rfl⟩

theorem deleting_of_gone {phase : Phase Content} {blob : BlobId} (hgone : blob ∈ goneOf phase) :
    ∃ todo gone aside, phase = .deleting todo gone aside := by
  cases phase with
  | deleting todo gone aside => exact ⟨todo, gone, aside, rfl⟩
  | scanning | ripe | dropping | listing | removing => cases hgone

theorem not_deleting (hsound : Sound layout world) (hwriter : world.writer = none)
    (hsweep : world.sweeps.get id = some sweep) : sweep.phase ≠ .deleting todo gone aside := by
  intro hphase
  have hwrites := ((hsound.sweeps id sweep hsweep).writes todo gone aside hphase).1
  rw [hwriter] at hwrites
  cases hwrites

theorem not_isGone (hsound : Sound layout world) (hwriter : world.writer = none) (blob : BlobId) :
    ¬ IsGone world blob := by
  rintro ⟨id, sweep, hsweep, hgone⟩
  obtain ⟨_, _, _, hphase⟩ := deleting_of_gone hgone
  exact not_deleting hsound hwriter hsweep hphase

theorem contains_set (table : Table String Int) (key other : String) (value : Int)
    (h : table.contains other = true ∨ other = key) :
    (table.set key value).contains other = true := by
  simp only [Table.contains, Table.get_set]
  split
  · rfl
  · next hne => exact h.resolve_right hne

theorem contains_modify (table : Table String Int) (key other : String) (f : Int → Int)
    (h : table.contains other = true) : (table.modify key f).contains other = true := by
  simp only [Table.contains, Table.get_modify] at h ⊢
  split
  · simpa using h
  · exact h

/-! ## Old copies -/

section Copies

variable {files asides filesNext asidesNext : Table String Int} {rel : String} {limit : Int}

theorem oldCopy_write {key : String} {now : Int} (hlimit : limit < now)
    (h : OldCopy (files.set key now) asides rel limit) : OldCopy files asides rel limit := by
  rcases h with ⟨modified, hfile, hold⟩ | haside
  · rw [Option.mem_def, Table.get_set] at hfile
    split at hfile
    · cases hfile
      omega
    · exact .inl ⟨modified, hfile, hold⟩
  · exact .inr haside

theorem oldCopy_touch {key : String} {f : Int → Int} (hlater : ∀ modified, modified ≤ f modified)
    (h : OldCopy (files.modify key f) asides rel limit) : OldCopy files asides rel limit := by
  rcases h with ⟨modified, hfile, hold⟩ | haside
  · rw [Option.mem_def, Table.get_modify] at hfile
    split at hfile
    · obtain ⟨was, hwas, rfl⟩ := Option.map_eq_some_iff.mp hfile
      exact .inl ⟨was, hwas, Int.le_trans (hlater was) hold⟩
    · exact .inl ⟨modified, hfile, hold⟩
  · exact .inr haside

theorem oldCopy_of (hfiles : ∀ modified, filesNext.get rel = some modified →
      files.get rel = some modified ∨ asides.get rel = some modified)
    (hasides : ∀ modified, asidesNext.get rel = some modified →
      files.get rel = some modified ∨ asides.get rel = some modified)
    (h : OldCopy filesNext asidesNext rel limit) : OldCopy files asides rel limit := by
  rcases h with ⟨modified, hfile, hold⟩ | ⟨modified, haside, hold⟩
  · exact (hfiles modified hfile).imp (⟨modified, ·, hold⟩) (⟨modified, ·, hold⟩)
  · exact (hasides modified haside).imp (⟨modified, ·, hold⟩) (⟨modified, ·, hold⟩)

theorem get_erase_some {α : Type} {table : Table String α} {key other : String} {value : α}
    (h : (table.erase key).get other = some value) : table.get other = some value := by
  rw [Table.get_erase] at h
  split at h
  · cases h
  · exact h

theorem oldCopy_erase {key : String} (h : OldCopy (files.erase key) asides rel limit) :
    OldCopy files asides rel limit :=
  oldCopy_of (fun _ hfile => .inl (get_erase_some hfile)) (fun _ haside => .inr haside) h

theorem oldCopy_drop {key : String} (h : OldCopy files (asides.erase key) rel limit) :
    OldCopy files asides rel limit :=
  oldCopy_of (fun _ hfile => .inl hfile) (fun _ haside => .inr (get_erase_some haside)) h

theorem oldCopy_setAside {key : String} {time : Int} (htime : files.get key = some time)
    (h : OldCopy (files.erase key) (asides.set key time) rel limit) :
    OldCopy files asides rel limit := by
  refine oldCopy_of (fun _ hfile => .inl (get_erase_some hfile)) (fun modified haside => ?_) h
  rw [Table.get_set] at haside
  split at haside
  · next hsame =>
      cases haside
      exact .inl (hsame ▸ htime)
  · exact .inr haside

theorem oldCopy_bringBack {key : String} {time : Int} (htime : asides.get key = some time)
    (h : OldCopy (files.set key time) (asides.erase key) rel limit) :
    OldCopy files asides rel limit := by
  refine oldCopy_of (fun modified hfile => ?_) (fun _ haside => .inr (get_erase_some haside)) h
  rw [Table.get_set] at hfile
  split at hfile
  · next hsame =>
      cases hfile
      exact .inr (hsame ▸ htime)
  · exact .inl hfile

end Copies

/-- No file is older, in place or aside, than it was. -/
def NoOlder (world next : World Content) : Prop :=
  ∀ rel limit, limit < world.clock → OldCopy next.files next.asides rel limit →
    OldCopy world.files world.asides rel limit

theorem noOlder_refl : NoOlder world world := fun _ _ _ h => h

theorem not_removes (hsound : SweepSound world id sweep) (holder : NoOlder world next) {rel : String}
    (hnot : ¬ Removes world.files world.asides sweep rel) :
    ¬ Removes next.files next.asides sweep rel := by
  rintro ⟨hripe, hphase⟩
  apply hnot
  refine ⟨hripe, ?_⟩
  cases hwas : sweep.phase with
  | listing named =>
    simp only [hwas] at hphase ⊢
    refine ⟨hphase.1, holder rel _ ?_ hphase.2⟩
    have hnow := hsound.now
    simp only [blobGrace]
    omega
  | removing named todo => simpa only [hwas] using hphase
  | scanning | ripe | deleting | dropping => simp only [hwas] at hphase

/-- What holds of a sweep stays while the rows take no path it removes, and its open transaction sees no
change. -/
theorem sweepSound_of (hsound : SweepSound world id sweep) (hclock : world.clock ≤ next.clock)
    (holder : NoOlder world next)
    (hpaths : ∀ blob row rel, next.rows.get blob = some row → row.path = some rel →
      ¬ Removes world.files world.asides sweep rel)
    (hidle : ∀ todo gone aside, sweep.phase = .deleting todo gone aside →
      next.writer = world.writer ∧ next.rows = world.rows ∧
        ∀ rel, world.files.contains rel = true → next.files.contains rel = true) :
    SweepSound next id sweep where
  now := Int.le_trans hsound.now hclock
  spares := fun blob row rel hrow hrel =>
    not_removes hsound holder (hpaths blob row rel hrow hrel)
  writes := by
    intro todo gone aside hphase
    obtain ⟨hwriter, hrows, hfiles⟩ := hidle todo gone aside hphase
    obtain ⟨hwrites, hgone⟩ := hsound.writes todo gone aside hphase
    rw [hwriter, hrows]
    exact ⟨hwrites, fun blob hblob row hrow rel hrel =>
      (hgone blob hblob row hrow rel hrel).imp_left (hfiles rel)⟩

/-! ## Puts -/

variable {bytes : Content} {found : Option BlobId}

/-- A step that leaves the rows and the sweeps: the files may only grow, and what the puts hold is
accounted for. -/
theorem sound_puts (hsound : Sound layout world) (files : Table String Int)
    (puts : Table Nat (Put Content))
    (hfiles : ∀ rel, world.files.contains rel = true → files.contains rel = true)
    (holder : NoOlder world { world with files := files })
    (hputs : ∀ id put rel, puts.get id = some put → HoldsFile layout rel put →
      files.contains rel = true)
    (hlooked : ∀ id bytes blob, puts.get id = some (.looked bytes (some blob)) →
      HasRow world blob ∧ ∀ row, world.rows.get blob = some row → row.hash = bytes) :
    Sound layout { world with files := files, puts := puts } where
  paths := hsound.paths
  files := fun blob row rel hrow hgone hrel => hfiles rel (hsound.files blob row rel hrow hgone hrel)
  puts := hputs
  looked := hlooked
  sweeps := by
    intro id sweep hsweep
    have hswept := hsound.sweeps id sweep hsweep
    apply sweepSound_of hswept
    · exact Int.le_refl _
    · exact holder
    · exact hswept.spares
    · exact fun _ _ _ _ => ⟨rfl, rfl, hfiles⟩

theorem sound_setPut (hsound : Sound layout world) (id : Nat) (put : Put Content)
    (files : Table String Int)
    (hfiles : ∀ rel, world.files.contains rel = true → files.contains rel = true)
    (holder : NoOlder world { world with files := files })
    (hput : ∀ rel, HoldsFile layout rel put → files.contains rel = true)
    (hlooked : ∀ bytes blob, put = .looked bytes (some blob) →
      HasRow world blob ∧ ∀ row, world.rows.get blob = some row → row.hash = bytes) :
    Sound layout { world with files := files, puts := world.puts.set id put } := by
  apply sound_puts hsound files _ hfiles holder
  · intro other held rel hheld hholds
    rw [Table.get_set] at hheld
    split at hheld
    · cases hheld
      exact hput rel hholds
    · exact hfiles rel (hsound.puts other held rel hheld hholds)
  · intro other bytes blob hheld
    rw [Table.get_set] at hheld
    split at hheld
    · cases hheld
      exact hlooked bytes blob rfl
    · exact hsound.looked other bytes blob hheld

theorem sound_stage (hsound : Sound layout world) (id : Nat) (bytes : Content) :
    Sound layout (world.setPut id (stage layout world bytes)) := by
  apply sound_setPut hsound id _ world.files (fun _ h => h) noOlder_refl
  · intro rel hholds
    unfold stage at hholds
    split at hholds
    · next hinline => exact absurd (hinline.symm.trans hholds) (by simp)
    · next found hpath =>
        split at hholds
        · next hthere =>
            obtain rfl : found = rel := Option.some.inj (hpath.symm.trans hholds)
            exact hthere
        · exact hholds.elim
  · intro other blob hlooked
    unfold stage at hlooked
    split at hlooked
    · cases hlooked
    · split at hlooked <;> cases hlooked

theorem sound_placed {put : Put Content} (hsound : Sound layout world)
    (hput : world.puts.get id = some put) (hstep : putStep layout world id put = some next) :
    Sound layout next := by
  cases put with
  | missing bytes =>
    obtain ⟨rel, hpath, rfl⟩ := Option.map_eq_some_iff.mp hstep
    apply sound_setPut hsound id (.staged bytes)
    · exact fun other hother => contains_set _ _ _ _ (.inl hother)
    · exact fun _ _ hlimit h => oldCopy_write hlimit h
    · intro other hholds
      exact contains_set _ _ _ _ (.inr (Option.some.inj (hholds.symm.trans hpath)))
    · intro other blob hlooked
      cases hlooked
  | present bytes =>
    obtain ⟨rel, hpath, rfl⟩ := Option.map_eq_some_iff.mp hstep
    apply sound_setPut hsound id (.staged bytes)
    · exact fun other hother => contains_modify _ _ _ _ hother
    · refine fun _ _ _ h => oldCopy_touch (fun modified => ?_) h
      split
      · next hold =>
          simp only [refreshAfter] at hold
          omega
      · exact Int.le_refl _
    · intro other hholds
      exact contains_modify _ _ _ _ (hsound.puts id (.present bytes) other hput hholds)
    · intro other blob hlooked
      cases hlooked
  | staged | looked => cases hstep

theorem sound_looked (hsound : Sound layout world)
    (hput : world.puts.get id = some (.staged bytes)) (hfinds : Finds world bytes found)
    (hapart : ∀ blob ∈ found, ∀ sweep ∈ world.sweeps.values, blob ∉ goneOf sweep.phase) :
    Sound layout (world.setPut id (.looked bytes found)) := by
  apply sound_setPut hsound id _ world.files (fun _ h => h) noOlder_refl
  · exact fun rel hholds => hsound.puts id _ rel hput hholds
  · intro other blob hlooked
    cases hlooked
    obtain ⟨row, hrow, hhash⟩ := Option.map_eq_some_iff.mp hfinds
    refine ⟨⟨⟨row, hrow⟩, ?_⟩, ?_⟩
    · rintro ⟨sweeping, sweep, hsweep, hgone⟩
      exact hapart blob rfl sweep (mem_values hsweep) hgone
    · intro held hheld
      obtain rfl : row = held := Option.some.inj (hrow.symm.trans hheld)
      exact hhash

theorem sound_fail (hsound : Sound layout world) (id : Nat) :
    Sound layout { world with puts := world.puts.erase id } := by
  apply sound_puts hsound world.files _ (fun _ h => h) noOlder_refl
  · intro other put rel hput hholds
    rw [Table.get_erase] at hput
    split at hput
    · cases hput
    · exact hsound.puts other put rel hput hholds
  · intro other bytes blob hput
    rw [Table.get_erase] at hput
    split at hput
    · cases hput
    · exact hsound.looked other bytes blob hput

/-! ## Rows written and named -/

theorem sound_tick (hsound : Sound layout world) (seconds : Nat) :
    Sound layout { world with clock := world.clock + seconds } where
  paths := hsound.paths
  files := hsound.files
  puts := hsound.puts
  looked := hsound.looked
  sweeps := by
    intro id sweep hsweep
    have hswept := hsound.sweeps id sweep hsweep
    apply sweepSound_of hswept
    · show world.clock ≤ world.clock + seconds
      omega
    · exact noOlder_refl
    · exact hswept.spares
    · exact fun _ _ _ _ => ⟨rfl, rfl, fun _ h => h⟩

theorem sound_rename (hsound : Sound layout world) (names : List (Nat × BlobId)) :
    Sound layout (world.rename names) where
  paths := hsound.paths
  files := hsound.files
  puts := hsound.puts
  looked := hsound.looked
  sweeps := fun id sweep hsweep =>
    have hswept := hsound.sweeps id sweep hsweep
    ⟨hswept.now, hswept.spares, hswept.writes⟩

theorem refresh_kept (now : Int) (row : Row Content) :
    (row.refresh now).path = row.path ∧ (row.refresh now).hash = row.hash ∧
      now - refreshAfter ≤ (row.refresh now).created ∧
      (row.created ≤ (row.refresh now).created) := by
  unfold Row.refresh
  split
  · next hold =>
      refine ⟨rfl, rfl, ?_, ?_⟩
      · show now - refreshAfter ≤ now
        unfold refreshAfter
        omega
      · show row.created ≤ now
        unfold refreshAfter at hold
        omega
  · exact ⟨rfl, rfl, by omega, Int.le_refl _⟩

/-- What a put that finds its row or writes one leaves under the id it returns. -/
structure Recorded (layout : Layout Content) (world next : World Content) (bytes : Content)
    (blob : BlobId) (row : Row Content) : Prop where
  returned : next.returned = world.returned ++ [(blob, world.clock)]
  written : next.rows.get blob = some row
  path : row.path = layout.path row.hash
  hash : row.hash = bytes
  created : world.clock - refreshAfter ≤ row.created
  was : ∀ held, world.rows.get blob = some held → held.hash = bytes ∧ held.created ≤ row.created
  others : ∀ other, other ≠ blob → next.rows.get other = world.rows.get other

theorem record_found (hsound : Sound layout world) {blob : BlobId}
    (hput : world.puts.get id = some (.looked bytes (some blob))) (fresh : BlobId) :
    ∃ row, world.rows.get blob = some row ∧
      Recorded layout world (record layout world bytes (some blob) fresh) bytes blob
        (row.refresh world.clock) := by
  obtain ⟨⟨⟨row, hrow⟩, _⟩, hhash⟩ := hsound.looked id bytes blob hput
  obtain ⟨hpath, hrowHash, hcreated, hlater⟩ := refresh_kept world.clock row
  refine ⟨row, hrow, rfl, ?_, ?_, ?_, hcreated, ?_, ?_⟩
  · simp only [record, Table.get_modify, if_true, hrow, Option.map_some]
  · rw [hpath, hrowHash]
    exact hsound.paths blob row hrow
  · rw [hrowHash]
    exact hhash row hrow
  · intro held hheld
    obtain rfl : row = held := Option.some.inj (hrow.symm.trans hheld)
    exact ⟨hhash row hrow, hlater⟩
  · intro other hne
    simp only [record, Table.get_modify, hne, if_false]

theorem record_new (hfresh : world.rows.get fresh = none) (bytes : Content) :
    Recorded layout world (record layout world bytes none fresh) bytes fresh
      ⟨bytes, layout.path bytes, world.clock⟩ where
  returned := rfl
  written := by simp only [record, Table.get_set, if_true]
  path := rfl
  hash := rfl
  created := by
    show world.clock - refreshAfter ≤ world.clock
    unfold refreshAfter
    omega
  was := by
    intro held hheld
    exact absurd (hfresh.symm.trans hheld) (by simp)
  others := by
    intro other hne
    simp only [record, Table.get_set, hne, if_false]

/-- A put that finds its row or writes one leaves the rest as it was. -/
structure RowsOnly (world next : World Content) : Prop where
  names : next.names = world.names
  dropped : next.dropped = world.dropped
  candidates : next.candidates = world.candidates
  sweeps : next.sweeps = world.sweeps
  files : next.files = world.files
  asides : next.asides = world.asides
  puts : next.puts = world.puts
  clock : next.clock = world.clock

theorem record_rest (layout : Layout Content) (world : World Content) (bytes : Content)
    (found : Option BlobId) (fresh : BlobId) :
    RowsOnly world (record layout world bytes found fresh) := by
  cases found <;> exact ⟨rfl, rfl, rfl, rfl, rfl, rfl, rfl, rfl⟩

theorem sound_recorded {blob : BlobId} {row : Row Content} (hsound : Sound layout world)
    (hwriter : world.writer = none) (hrest : RowsOnly world next)
    (hrow : Recorded layout world next bytes blob row)
    (hfile : ∀ rel, layout.path bytes = some rel → world.files.contains rel = true)
    (hspares : ∀ rel, layout.path bytes = some rel →
      ∀ id sweep, world.sweeps.get id = some sweep →
        ¬ Removes world.files world.asides sweep rel) (id : Nat) :
    Sound layout { next with puts := next.puts.erase id } := by
  have hnone : ∀ other, ¬ IsGone { next with puts := next.puts.erase id } other := by
    rintro other ⟨sweeping, sweep, hsweep, hgone⟩
    simp only [hrest.sweeps] at hsweep
    exact not_isGone hsound hwriter other ⟨sweeping, sweep, hsweep, hgone⟩
  have hheld : ∀ other held, next.rows.get other = some held →
      other = blob ∧ held = row ∨ world.rows.get other = some held := by
    intro other held hget
    by_cases hother : other = blob
    · subst hother
      exact .inl ⟨rfl, Option.some.inj (hget.symm.trans hrow.written)⟩
    · exact .inr ((hrow.others other hother).symm.trans hget)
  have hpath : row.path = layout.path bytes := hrow.hash ▸ hrow.path
  constructor
  · intro other held hget
    rcases hheld other held hget with ⟨rfl, rfl⟩ | hwas
    · exact hrow.path
    · exact hsound.paths other held hwas
  · intro other held rel hget _ hrel
    simp only [hrest.files]
    rcases hheld other held hget with ⟨rfl, rfl⟩ | hwas
    · exact hfile rel (hpath.symm.trans hrel)
    · exact hsound.files other held rel hwas (not_isGone hsound hwriter other) hrel
  · intro other put rel hget hholds
    simp only [hrest.puts, hrest.files] at hget ⊢
    rw [Table.get_erase] at hget
    split at hget
    · cases hget
    · exact hsound.puts other put rel hget hholds
  · intro other content named hget
    simp only [hrest.puts, Table.get_erase] at hget
    split at hget
    · cases hget
    · obtain ⟨⟨⟨was, hwas⟩, _⟩, hcontent⟩ := hsound.looked other content named hget
      by_cases hnamed : named = blob
      · subst hnamed
        refine ⟨⟨⟨row, hrow.written⟩, hnone named⟩, fun held hgetRow => ?_⟩
        obtain rfl : row = held := Option.some.inj (hrow.written.symm.trans hgetRow)
        rw [hrow.hash, ← (hrow.was was hwas).1]
        exact hcontent was hwas
      · have hsame := hrow.others named hnamed
        exact ⟨⟨⟨was, hsame.trans hwas⟩, hnone named⟩,
          fun held hgetRow => hcontent held (hsame.symm.trans hgetRow)⟩
  · intro sweeping sweep hsweep
    simp only [hrest.sweeps] at hsweep
    have hswept := hsound.sweeps sweeping sweep hsweep
    apply sweepSound_of hswept
    · exact Int.le_of_eq hrest.clock.symm
    · intro rel limit _ hold
      simpa only [hrest.files, hrest.asides] using hold
    · intro other held rel hget hrel
      rcases hheld other held hget with ⟨rfl, rfl⟩ | hwas
      · exact hspares rel (hpath.symm.trans hrel) sweeping sweep hsweep
      · exact hswept.spares other held rel hwas hrel
    · exact fun _ _ _ hphase => absurd hphase (not_deleting hsound hwriter hsweep)

theorem sound_record (hsound : Sound layout world)
    (hput : world.puts.get id = some (.looked bytes found)) (hwriter : world.writer = none)
    (hfresh : found = none → world.rows.get fresh = none)
    (htimely : Timely layout world (.looked bytes found)) :
    Sound layout { record layout world bytes found fresh with
      puts := (record layout world bytes found fresh).puts.erase id } := by
  have hfile : ∀ rel, layout.path bytes = some rel → world.files.contains rel = true :=
    fun rel hrel => hsound.puts id _ rel hput hrel
  have hrest := record_rest layout world bytes found fresh
  cases found with
  | some blob =>
    obtain ⟨row, hrow, hrecorded⟩ := record_found hsound hput fresh
    apply sound_recorded hsound hwriter hrest hrecorded hfile
    intro rel hrel sweeping sweep hsweep
    have hhash := (hrecorded.was row hrow).1
    apply (hsound.sweeps sweeping sweep hsweep).spares blob row rel hrow
    rw [hsound.paths blob row hrow, hhash]
    exact hrel
  | none =>
    apply sound_recorded hsound hwriter hrest (record_new (hfresh rfl) bytes) hfile
    exact fun rel hrel sweeping sweep hsweep => htimely rel hrel sweep (mem_values hsweep)

/-! ## Sweeps -/

/-- The rows, the puts and the clock are as they were. -/
structure Untouched (world next : World Content) : Prop where
  rows : next.rows = world.rows
  clock : next.clock = world.clock
  puts : next.puts = world.puts

/-- A step of one sweep that leaves the rows and the puts, and no row gone that was not. -/
theorem sound_sweep (hsound : Sound layout world) (id : Nat) (hkept : Untouched world next)
    (hfiles : ∀ rel, world.files.contains rel = true → next.files.contains rel = true)
    (holder : NoOlder world next)
    (hback : ∀ blob row rel, IsGone world blob → ¬ IsGone next blob →
      world.rows.get blob = some row → row.path = some rel → next.files.contains rel = true)
    (hopen : ∀ other sweep todo gone aside, other ≠ id → world.sweeps.get other = some sweep →
      sweep.phase = .deleting todo gone aside → next.writer = world.writer)
    (hsweeps : ∀ other sweep, next.sweeps.get other = some sweep →
      (other ≠ id ∧ world.sweeps.get other = some sweep) ∨
      (SweepSound next other sweep ∧ ∀ blob ∈ goneOf sweep.phase, IsGone world blob)) :
    Sound layout next := by
  obtain ⟨hrows, hclock, hputs⟩ := hkept
  have hgone : ∀ blob, IsGone next blob → IsGone world blob := by
    rintro blob ⟨other, sweep, hsweep, hblob⟩
    rcases hsweeps other sweep hsweep with ⟨_, hwas⟩ | ⟨_, hwas⟩
    · exact ⟨other, sweep, hwas, hblob⟩
    · exact hwas blob hblob
  constructor
  · rw [hrows]
    exact hsound.paths
  · intro blob row rel hrow hstays hrel
    rw [hrows] at hrow
    by_cases hwas : IsGone world blob
    · exact hback blob row rel hwas hstays hrow hrel
    · exact hfiles rel (hsound.files blob row rel hrow hwas hrel)
  · intro other put rel hput hholds
    rw [hputs] at hput
    exact hfiles rel (hsound.puts other put rel hput hholds)
  · intro other bytes blob hput
    rw [hputs] at hput
    obtain ⟨⟨hrow, hstays⟩, hhash⟩ := hsound.looked other bytes blob hput
    rw [HasRow, hrows]
    exact ⟨⟨hrow, fun h => hstays (hgone blob h)⟩, hhash⟩
  · intro other sweep hsweep
    rcases hsweeps other sweep hsweep with ⟨hne, hwas⟩ | ⟨hnew, _⟩
    · have hswept := hsound.sweeps other sweep hwas
      apply sweepSound_of hswept
      · exact Int.le_of_eq hclock.symm
      · exact holder
      · exact hrows ▸ hswept.spares
      · exact fun todo gone aside hphase =>
          ⟨hopen other sweep todo gone aside hne hwas hphase, hrows, hfiles⟩
    · exact hnew

theorem sound_move (hsound : Sound layout world) (id : Nat) (sweep : Sweep Content)
    (hsweeps : next.sweeps = world.sweeps.set id sweep)
    (hidle : ∀ was, world.sweeps.get id = some was → goneOf was.phase = [])
    (hidleNext : goneOf sweep.phase = []) (hmoved : SweepSound next id sweep)
    (hkept : Untouched world next)
    (hfiles : ∀ rel, world.files.contains rel = true → next.files.contains rel = true)
    (holder : NoOlder world next)
    (hwriter : next.writer = world.writer ∨ world.writer = none) :
    Sound layout next := by
  apply sound_sweep hsound id hkept hfiles holder
  · rintro blob row rel ⟨other, was, hwas, hgone⟩ hstays _ _
    by_cases hother : other = id
    · subst hother
      rw [hidle was hwas] at hgone
      cases hgone
    · refine absurd ⟨other, was, ?_, hgone⟩ hstays
      rw [hsweeps, Table.get_set, if_neg hother]
      exact hwas
  · intro other was todo gone aside _ hwas hphase
    exact hwriter.resolve_right fun hnone => not_deleting hsound hnone hwas hphase
  · intro other held hheld
    rw [hsweeps, Table.get_set] at hheld
    split at hheld
    · next hother =>
        cases hheld
        subst hother
        exact .inr ⟨hmoved, fun blob hblob => (by rw [hidleNext] at hblob; cases hblob)⟩
    · next hother => exact .inl ⟨hother, hheld⟩

theorem sound_end (hsound : Sound layout world) (id : Nat)
    (hsweeps : next.sweeps = world.sweeps.erase id)
    (hidle : ∀ was, world.sweeps.get id = some was → goneOf was.phase = [])
    (hkept : Untouched world next) (hfiles : next.files = world.files)
    (hasides : next.asides = world.asides) (hwriter : next.writer = world.writer) :
    Sound layout next := by
  apply sound_sweep hsound id hkept (fun rel h => hfiles ▸ h)
  · intro rel limit _ hold
    simpa only [hfiles, hasides] using hold
  · rintro blob row rel ⟨other, was, hwas, hgone⟩ hstays _ _
    by_cases hother : other = id
    · subst hother
      rw [hidle was hwas] at hgone
      cases hgone
    · refine absurd ⟨other, was, ?_, hgone⟩ hstays
      rw [hsweeps, Table.get_erase, if_neg hother]
      exact hwas
  · exact fun _ _ _ _ _ _ _ _ => hwriter
  · intro other held hheld
    rw [hsweeps, Table.get_erase] at hheld
    split at hheld
    · cases hheld
    · next hother => exact .inl ⟨hother, hheld⟩

theorem sound_sweepStart (hsound : Sound layout world) (hfree : world.sweeps.get id = none) :
    Sound layout { world with
      sweeps := world.sweeps.set id
        ⟨world.clock, .empty, .empty, .scanning (unusedAt world) 0⟩ } := by
  apply sound_move hsound id _ rfl
  · intro was hwas
    exact absurd (hfree.symm.trans hwas) (by simp)
  · rfl
  · exact ⟨Int.le_refl _, fun _ _ _ _ _ h => h.2, fun _ _ _ h => (by cases h)⟩
  · exact ⟨rfl, rfl, rfl⟩
  · exact fun _ h => h
  · exact noOlder_refl
  · exact .inl rfl

section Phases

variable {world : World Content} {id : Nat} {sweep : Sweep Content}

theorem idle_of (hsweep : world.sweeps.get id = some sweep) (h : goneOf sweep.phase = []) :
    ∀ was, world.sweeps.get id = some was → goneOf was.phase = [] := by
  intro was hwas
  obtain rfl : sweep = was := Option.some.inj (hsweep.symm.trans hwas)
  exact h

variable {table : Nat} {unused todo : List (BlobId × Row Content)} {aside : List String}
  {gone : List BlobId} {row : BlobId × Row Content}

/-- A sweep moves on outside its transaction, and the files do not grow fewer or older. -/
theorem sound_phase (hsound : Sound layout world) (hsweep : world.sweeps.get id = some sweep)
    (hidle : goneOf sweep.phase = []) (moved : Sweep Content) (hnow : moved.now = sweep.now)
    (hphase : ∀ todo gone aside, moved.phase ≠ .deleting todo gone aside)
    (files asides : Table String Int)
    (hspares : ∀ blob row rel, world.rows.get blob = some row → row.path = some rel →
      ¬ Removes files asides moved rel)
    (hfiles : ∀ rel, world.files.contains rel = true → files.contains rel = true)
    (holder : NoOlder world { world with files := files, asides := asides }) :
    Sound layout { world with
      files := files, asides := asides, sweeps := world.sweeps.set id moved } := by
  have hwas := (hsound.sweeps id sweep hsweep).now
  apply sound_move hsound id moved rfl (idle_of hsweep hidle)
  · cases hmoved : moved.phase with
    | deleting todo gone aside => exact absurd hmoved (hphase todo gone aside)
    | scanning | ripe | dropping | listing | removing => rfl
  · exact ⟨hnow ▸ hwas, hspares, fun todo gone aside h => absurd h (hphase todo gone aside)⟩
  · exact ⟨rfl, rfl, rfl⟩
  · exact hfiles
  · exact holder
  · exact .inl rfl

theorem sound_begin (hsound : Sound layout world) (hsweep : world.sweeps.get id = some sweep)
    (hphase : sweep.phase = .ripe unused) (hwriter : world.writer = none) :
    Sound layout
      { world.setPhase id sweep (.deleting unused [] []) with writer := some id } := by
  have hwas := hsound.sweeps id sweep hsweep
  apply sound_move hsound id _ rfl (idle_of hsweep (by rw [hphase]; rfl)) rfl
  · refine ⟨hwas.now, fun _ _ _ _ _ h => h.2, ?_⟩
    rintro _ _ _ ⟨⟩
    exact ⟨rfl, fun _ hblob => (by cases hblob)⟩
  · exact ⟨rfl, rfl, rfl⟩
  · exact fun _ h => h
  · exact noOlder_refl
  · exact .inr hwriter

theorem deleting_unique (hsound : Sound layout world) (hwriter : world.writer = some id)
    {other : Nat} {held : Sweep Content} (hheld : world.sweeps.get other = some held)
    {blob : BlobId} (hgone : blob ∈ goneOf held.phase) : other = id := by
  obtain ⟨todo, gone, aside, hphase⟩ := deleting_of_gone hgone
  have hwrites := ((hsound.sweeps other held hheld).writes todo gone aside hphase).1
  exact Option.some.inj (hwrites.symm.trans hwriter)

theorem isGone_iff (hsound : Sound layout world) (hsweep : world.sweeps.get id = some sweep)
    (hphase : sweep.phase = .deleting todo gone aside) (blob : BlobId) :
    IsGone world blob ↔ blob ∈ gone := by
  have hwriter := ((hsound.sweeps id sweep hsweep).writes todo gone aside hphase).1
  constructor
  · rintro ⟨other, was, hwas, hblob⟩
    obtain rfl := deleting_unique hsound hwriter hwas hblob
    obtain rfl : sweep = was := Option.some.inj (hsweep.symm.trans hwas)
    rw [hphase] at hblob
    exact hblob
  · intro hblob
    exact ⟨id, sweep, hsweep, by rw [hphase]; exact hblob⟩

theorem others_idle (hsound : Sound layout world) (hsweep : world.sweeps.get id = some sweep)
    (hphase : sweep.phase = .deleting todo gone aside) {other : Nat} (hother : other ≠ id)
    {held : Sweep Content} (hheld : world.sweeps.get other = some held)
    (itsTodo : List (BlobId × Row Content)) (itsGone : List BlobId) (itsAside : List String) :
    held.phase ≠ .deleting itsTodo itsGone itsAside := by
  intro hdeleting
  have hits := ((hsound.sweeps other held hheld).writes _ _ _ hdeleting).1
  have hmine := ((hsound.sweeps id sweep hsweep).writes _ _ _ hphase).1
  exact hother (Option.some.inj (hits.symm.trans hmine))

theorem sound_spared (hsound : Sound layout world) (hsweep : world.sweeps.get id = some sweep)
    (hphase : sweep.phase = .deleting (row :: todo) gone aside) :
    Sound layout (world.setPhase id sweep (.deleting todo gone aside)) := by
  have hswept := hsound.sweeps id sweep hsweep
  have hstill : ∀ blob, IsGone world blob →
      IsGone (world.setPhase id sweep (.deleting todo gone aside)) blob := by
    intro blob hblob
    refine ⟨id, { sweep with phase := .deleting todo gone aside }, ?_, ?_⟩
    · simp only [World.setPhase, Table.get_set, if_true]
    · exact (isGone_iff hsound hsweep hphase blob).mp hblob
  apply sound_sweep hsound id
  · exact ⟨rfl, rfl, rfl⟩
  · exact fun _ h => h
  · exact noOlder_refl
  · exact fun blob _ _ hwas hstays _ _ => absurd (hstill blob hwas) hstays
  · exact fun _ _ _ _ _ _ _ _ => rfl
  · intro other held hheld
    simp only [World.setPhase, Table.get_set] at hheld
    split at hheld
    · next hother =>
        cases hheld
        subst hother
        refine .inr ⟨⟨hswept.now, fun _ _ _ _ _ h => h.2, ?_⟩, fun blob hblob => ?_⟩
        · rintro _ _ _ ⟨⟩
          exact hswept.writes _ _ _ hphase
        · exact (isGone_iff hsound hsweep hphase blob).mpr hblob
    · next hother => exact .inl ⟨hother, hheld⟩

/-- A row deleted, its file kept or set aside: no put counts on either, and no row it leaves needs
it. -/
theorem sound_deleted (hsound : Sound layout world) (hsweep : world.sweeps.get id = some sweep)
    {asideNext : List String} {fails : Bool}
    (hphase : sweep.phase = .deleting (row :: todo) gone aside) (hnot : row.1 ∉ gone)
    (hunheld : Unheld layout world row gone fails) (files asides : Table String Int)
    (hfiles : ∀ rel, world.files.contains rel = true → files.contains rel = true ∨
      (row.2.path = some rel ∧ rel ∈ asideNext ∧
        shared world.rows (gone ++ [row.1]) rel = false ∧ fails = false))
    (holder : NoOlder world { world with files := files, asides := asides })
    (haside : ∀ rel ∈ aside, rel ∈ asideNext) :
    Sound layout { world with
      files := files
      asides := asides
      sweeps := world.sweeps.set id
        { sweep with phase := .deleting todo (gone ++ [row.1]) asideNext } } := by
  have hswept := hsound.sweeps id sweep hsweep
  obtain ⟨hwriter, hgone⟩ := hswept.writes _ _ _ hphase
  have hwasGone := isGone_iff hsound hsweep hphase
  have hisGone : ∀ blob, IsGone { world with
      files := files
      asides := asides
      sweeps := world.sweeps.set id
        { sweep with phase := .deleting todo (gone ++ [row.1]) asideNext } } blob →
      blob ∈ gone ∨ blob = row.1 := by
    rintro blob ⟨other, was, hwas, hblob⟩
    simp only [Table.get_set] at hwas
    split at hwas
    · cases hwas
      simpa [goneOf] using hblob
    · exact .inl ((hwasGone blob).mp ⟨other, was, hwas, hblob⟩)
  have hnowGone : ∀ blob, blob ∈ gone ∨ blob = row.1 → IsGone { world with
      files := files
      asides := asides
      sweeps := world.sweeps.set id
        { sweep with phase := .deleting todo (gone ++ [row.1]) asideNext } } blob := by
    intro blob hblob
    refine ⟨id, { sweep with phase := .deleting todo (gone ++ [row.1]) asideNext }, ?_, ?_⟩
    · simp only [Table.get_set, if_true]
    · simpa [goneOf] using hblob
  constructor
  · exact hsound.paths
  · intro blob held rel hheld hstays hrel
    obtain ⟨hkept, hother⟩ := not_or.mp (mt (hnowGone blob) hstays)
    have hthere := hsound.files blob held rel hheld ((hwasGone blob).not.mpr hkept) hrel
    rcases hfiles rel hthere with hin | ⟨_, _, hshared, _⟩
    · exact hin
    · exfalso
      have hshares : shared world.rows (gone ++ [row.1]) rel = true := by
        apply List.any_eq_true.mpr
        exact ⟨(blob, held), Table.mem_rows.mpr hheld, by simp [hkept, hother, hrel]⟩
      exact absurd (hshares.symm.trans hshared) (by decide)
  · intro other put rel hput hholds
    rcases hfiles rel (hsound.puts other put rel hput hholds) with hin | ⟨hpath, _, hshared, hdone⟩
    · exact hin
    · exact absurd hholds ((hunheld put (mem_values hput)).2 rel hpath hshared hdone)
  · intro other bytes blob hput
    obtain ⟨⟨hrow, hstays⟩, hhash⟩ := hsound.looked other bytes blob hput
    refine ⟨⟨hrow, fun hnow => ?_⟩, hhash⟩
    rcases hisGone blob hnow with hwas | rfl
    · exact hstays ((hwasGone blob).mpr hwas)
    · exact (hunheld _ (mem_values hput)).1 rfl
  · intro other held hheld
    simp only [Table.get_set] at hheld
    split at hheld
    · next hother =>
        cases hheld
        subst hother
        refine ⟨hswept.now, fun _ _ _ _ _ h => h.2, ?_⟩
        rintro _ _ _ ⟨⟩
        refine ⟨hwriter, fun blob hblob found hfound rel hrel => ?_⟩
        have hwas : world.files.contains rel = true ∨ rel ∈ aside := by
          rcases List.mem_append.mp hblob with hold | hnew
          · exact hgone blob hold found hfound rel hrel
          · obtain rfl := List.mem_singleton.mp hnew
            exact .inl (hsound.files row.1 found rel hfound ((hwasGone row.1).not.mpr hnot) hrel)
        rcases hwas with hthere | hput
        · exact (hfiles rel hthere).imp_right fun hset => hset.2.1
        · exact .inr (haside rel hput)
    · next hother =>
        have hits := hsound.sweeps other held hheld
        apply sweepSound_of hits
        · exact Int.le_refl _
        · exact holder
        · exact hits.spares
        · exact fun _ _ _ hdeleting =>
            absurd hdeleting (others_idle hsound hsweep hphase hother hheld _ _ _)

theorem sound_deleteRow (hsound : Sound layout world) (hsweep : world.sweeps.get id = some sweep)
    (hphase : sweep.phase = .deleting (row :: todo) gone aside) (fails : Bool)
    (hapart : SparesRow layout world sweep fails sweep.phase) :
    Sound layout (deleteRow world id sweep row todo gone aside fails) := by
  rw [hphase] at hapart
  unfold deleteRow
  split
  · exact sound_spared hsound hsweep hphase
  · next current hcurrent =>
      split
      · next hguard =>
          have hunheld : Unheld layout world row gone fails := by
            refine hapart hguard.2 fun hfresh => ?_
            have hyoung := hfresh current hcurrent
            omega
          have hkeeps : ∀ asideNext, (∀ rel ∈ aside, rel ∈ asideNext) → Sound layout
              (world.setPhase id sweep (.deleting todo (gone ++ [row.1]) asideNext)) :=
            fun asideNext haside => sound_deleted hsound hsweep hphase hguard.2 hunheld
              world.files world.asides (fun _ h => .inl h) noOlder_refl haside
          split
          · exact hkeeps aside fun _ h => h
          · next rel hpath =>
              split
              · exact hkeeps aside fun _ h => h
              · next hshared =>
                  obtain ⟨hshared, hdone⟩ := not_or.mp hshared
                  have hnext : ∀ other ∈ aside, other ∈ aside ++ [rel] :=
                    fun other hother => List.mem_append_left _ hother
                  unfold World.setAside
                  split
                  · exact hkeeps (aside ++ [rel]) hnext
                  · next modified hmodified =>
                      apply sound_deleted hsound hsweep hphase hguard.2 hunheld
                        (world.files.erase rel) (world.asides.set rel modified) _ _ hnext
                      · intro other hthere
                        by_cases hother : other = rel
                        · subst hother
                          exact .inr ⟨hpath, by simp, by simpa using hshared, by simpa using hdone⟩
                        · left
                          simpa only [Table.contains, Table.get_erase, hother, if_false] using hthere
                      · exact fun _ _ _ hold => oldCopy_setAside hmodified hold
      · exact sound_spared hsound hsweep hphase

theorem sound_commitSweep (hsound : Sound layout world)
    (hsweep : world.sweeps.get id = some sweep) (hphase : sweep.phase = .deleting [] gone aside) :
    Sound layout { world.setPhase id sweep (.dropping aside) with
      rows := world.rows.filter fun blob _ => blob ∉ gone
      writer := none } := by
  have hswept := hsound.sweeps id sweep hsweep
  have hwriter := (hswept.writes _ _ _ hphase).1
  have hwasGone := isGone_iff hsound hsweep hphase
  have hnone : ∀ blob, ¬ IsGone { world.setPhase id sweep (.dropping aside) with
      rows := world.rows.filter fun blob _ => blob ∉ gone
      writer := none } blob := by
    rintro blob ⟨other, held, hheld, hblob⟩
    simp only [World.setPhase, Table.get_set] at hheld
    split at hheld
    · cases hheld
      cases hblob
    · next hother => exact hother (deleting_unique hsound hwriter hheld hblob)
  have hstays : ∀ blob row, (world.rows.filter fun blob _ => blob ∉ gone).get blob = some row →
      world.rows.get blob = some row ∧ ¬ IsGone world blob := by
    intro blob row hrow
    simp only [Table.get_filter, Option.filter_eq_some_iff, decide_eq_true_eq] at hrow
    exact ⟨hrow.1, (hwasGone blob).not.mpr hrow.2⟩
  have hkept : ∀ blob row, world.rows.get blob = some row → ¬ IsGone world blob →
      (world.rows.filter fun blob _ => blob ∉ gone).get blob = some row := by
    intro blob row hrow hblob
    simp only [Table.get_filter, Option.filter_eq_some_iff, decide_eq_true_eq]
    exact ⟨hrow, (hwasGone blob).not.mp hblob⟩
  constructor
  · exact fun blob row hrow => hsound.paths blob row (hstays blob row hrow).1
  · intro blob row rel hrow _ hrel
    exact hsound.files blob row rel (hstays blob row hrow).1 (hstays blob row hrow).2 hrel
  · exact hsound.puts
  · intro other bytes blob hput
    obtain ⟨⟨⟨row, hrow⟩, hblob⟩, hhash⟩ := hsound.looked other bytes blob hput
    exact ⟨⟨⟨row, hkept blob row hrow hblob⟩, hnone blob⟩,
      fun found hfound => hhash found (hstays blob found hfound).1⟩
  · intro other held hheld
    simp only [World.setPhase, Table.get_set] at hheld
    split at hheld
    · cases hheld
      exact ⟨hswept.now, fun _ _ _ _ _ h => h.2, fun _ _ _ h => (by cases h)⟩
    · next hother =>
        have hits := hsound.sweeps other held hheld
        apply sweepSound_of hits
        · exact Int.le_refl _
        · exact noOlder_refl
        · exact fun blob row rel hrow hrel =>
            hits.spares blob row rel (hstays blob row hrow).1 hrel
        · exact fun _ _ _ hdeleting =>
            absurd hdeleting (others_idle hsound hsweep hphase hother hheld _ _ _)

/-! ## Files put back and removed -/

theorem contains_bringBack (world : World Content) (rel other : String)
    (h : world.files.contains other = true) : (world.bringBack rel).files.contains other = true := by
  unfold World.bringBack
  split
  · exact h
  · exact contains_set _ _ _ _ (.inl h)

theorem bringBack_kept (world : World Content) (rel : String) :
    Untouched world (world.bringBack rel) ∧ NoOlder world (world.bringBack rel) := by
  unfold World.bringBack
  split
  · exact ⟨⟨rfl, rfl, rfl⟩, noOlder_refl⟩
  · next time htime =>
      exact ⟨⟨rfl, rfl, rfl⟩, fun _ _ _ hold => oldCopy_bringBack htime hold⟩

theorem bringBack_all (aside : List String) (world : World Content) :
    let back := aside.foldl World.bringBack world
    Untouched world back ∧ NoOlder world back ∧
    (∀ rel, world.files.contains rel = true → back.files.contains rel = true) ∧
    ∀ rel ∈ aside, world.files.contains rel = true ∨ world.asides.contains rel = true →
      back.files.contains rel = true := by
  induction aside generalizing world with
  | nil => exact ⟨⟨rfl, rfl, rfl⟩, noOlder_refl, fun _ h => h, fun _ h => (by cases h)⟩
  | cons first rest ih =>
    obtain ⟨hkept, holder, hfiles, hback⟩ := ih (world.bringBack first)
    obtain ⟨hfirstKept, hfirstOlder⟩ := bringBack_kept world first
    refine ⟨⟨hkept.rows.trans hfirstKept.rows, hkept.clock.trans hfirstKept.clock,
        hkept.puts.trans hfirstKept.puts⟩, ?_,
      fun rel h => hfiles rel (contains_bringBack world first rel h), ?_⟩
    · intro rel limit hlimit hold
      exact hfirstOlder rel limit hlimit (holder rel limit (hfirstKept.clock ▸ hlimit) hold)
    · intro rel hrel hthere
      rcases hthere with hfile | haside
      · exact hfiles rel (contains_bringBack world first rel hfile)
      · by_cases hfirst : rel = first
        · subst hfirst
          apply hfiles rel
          unfold World.bringBack
          split
          · next hnone => simp [Table.contains, hnone] at haside
          · exact contains_set _ _ _ _ (.inr rfl)
        · have hrest := (List.mem_cons.mp hrel).resolve_left hfirst
          apply hback rel hrest
          unfold World.bringBack
          split
          · exact .inr haside
          · right
            simpa only [Table.contains, Table.get_erase, hfirst, if_false] using haside

/-- A transaction ends with its rows back, and each file it set aside is in place. -/
theorem sound_undone (hsound : Sound layout world) (hsweep : world.sweeps.get id = some sweep)
    (hphase : sweep.phase = .deleting todo gone aside) (hkept : Untouched world next)
    (hfiles : ∀ rel, world.files.contains rel = true → next.files.contains rel = true)
    (holder : NoOlder world next) (hback : ∀ rel ∈ aside, next.files.contains rel = true)
    (hsweeps : next.sweeps = world.sweeps.erase id) : Sound layout next := by
  have hgone := ((hsound.sweeps id sweep hsweep).writes _ _ _ hphase).2
  apply sound_sweep hsound id hkept hfiles holder
  · intro blob row rel hwas _ hrow hrel
    have hblob := (isGone_iff hsound hsweep hphase blob).mp hwas
    exact (hgone blob hblob row hrow rel hrel).elim (hfiles rel) (hback rel)
  · exact fun other held _ _ _ hother hheld hdeleting =>
      absurd hdeleting (others_idle hsound hsweep hphase hother hheld _ _ _)
  · intro other held hheld
    rw [hsweeps, Table.get_erase] at hheld
    split at hheld
    · cases hheld
    · next hother => exact .inl ⟨hother, hheld⟩

theorem sound_rollback (hsound : Sound layout world) (hsweep : world.sweeps.get id = some sweep)
    (hphase : sweep.phase = .deleting [] gone aside)
    (hapart : ∀ rel ∈ aside,
      world.files.contains rel = true ∨ world.asides.contains rel = true) :
    Sound layout { aside.foldl World.bringBack world with
      writer := none
      sweeps := world.sweeps.erase id } := by
  obtain ⟨hkept, holder, hfiles, hback⟩ := bringBack_all aside world
  exact sound_undone hsound hsweep hphase ⟨hkept.rows, hkept.clock, hkept.puts⟩ hfiles holder
    (fun rel haside => hback rel haside (hapart rel haside)) rfl

theorem sound_erase (hsound : Sound layout world) {rel : String}
    (hrows : ∀ blob row, world.rows.get blob = some row → row.path ≠ some rel)
    (hputs : ∀ put ∈ world.puts.values, ¬ HoldsFile layout rel put) :
    Sound layout { world with files := world.files.erase rel } := by
  have hstays : ∀ other, other ≠ rel → world.files.contains other = true →
      (world.files.erase rel).contains other = true := by
    intro other hother hthere
    simpa only [Table.contains, Table.get_erase, hother, if_false] using hthere
  have hnotRow : ∀ blob row other, world.rows.get blob = some row → row.path = some other →
      other ≠ rel := by
    rintro blob row other hrow hpath rfl
    exact hrows blob row hrow hpath
  constructor
  · exact hsound.paths
  · intro blob row other hrow hblob hpath
    exact hstays other (hnotRow blob row other hrow hpath)
      (hsound.files blob row other hrow hblob hpath)
  · intro put held other hheld hholds
    apply hstays other ?_ (hsound.puts put held other hheld hholds)
    rintro rfl
    exact hputs held (mem_values hheld) hholds
  · exact hsound.looked
  · intro other held hheld
    have hits := hsound.sweeps other held hheld
    refine ⟨hits.now, fun blob row path hrow hpath => ?_, fun todo gone aside hphase => ?_⟩
    · exact not_removes hits (fun _ _ _ hold => oldCopy_erase hold) (hits.spares blob row path hrow hpath)
    · obtain ⟨hwriter, hgone⟩ := hits.writes todo gone aside hphase
      refine ⟨hwriter, fun blob hblob row hrow path hpath => ?_⟩
      exact (hgone blob hblob row hrow path hpath).imp_left
        (hstays path (hnotRow blob row path hrow hpath))

theorem sound_removeFile (hsound : Sound layout world)
    (hsweep : world.sweeps.get id = some sweep) {named : List String} {item : Stored}
    {todo : List Stored} (hphase : sweep.phase = .removing named (item :: todo)) (fails : Bool)
    (hapart : SparesFile layout world sweep fails sweep.phase) :
    Sound layout (removeFile world id sweep named item todo fails) := by
  have hidle : goneOf sweep.phase = [] := by rw [hphase]; rfl
  have hwas := (hsound.sweeps id sweep hsweep).spares
  have hmoving : ∀ next files asides, (∀ rel, world.files.contains rel = true →
      files.contains rel = true) → NoOlder world { world with files := files, asides := asides } →
      Sound layout { world with
        files := files, asides := asides
        sweeps := world.sweeps.set id
          { sweep with next := next, phase := .removing named todo } } := by
    intro next files asides hfiles holder
    refine sound_phase hsound hsweep hidle { sweep with next := next, phase := .removing named todo }
      rfl (fun _ _ _ h => (by cases h)) files asides ?_ hfiles holder
    rintro blob row rel hrow hrel ⟨hripe, hnot, other, hother, hold⟩
    refine hwas blob row rel hrow hrel ⟨hripe, ?_⟩
    rw [hphase]
    exact ⟨hnot, other, .tail _ hother, hold⟩
  have hmoved := hmoving sweep.next world.files world.asides (fun _ h => h) noOlder_refl
  unfold removeFile
  simp only
  split
  · exact hmoved
  · next hyoung =>
      cases item with
      | aside rel modified =>
        simp only
        split
        · exact hmoved
        · split
          · unfold World.bringBack
            split
            · exact hmoved
            · next time htime =>
                exact hmoving sweep.next (world.files.set rel time) (world.asides.erase rel)
                  (fun other hother => contains_set _ _ _ _ (.inl hother))
                  fun _ _ _ hold => oldCopy_bringBack htime hold
          · exact hmoving sweep.next world.files (world.asides.erase rel) (fun _ h => h)
              fun _ _ _ hold => oldCopy_drop hold
      | file rel modified =>
        have hold : modified ≤ sweep.now - blobGrace := Int.not_lt.mp hyoung
        simp only
        split
        · exact hmoved
        · next hnot =>
            split
            · next hripe =>
                split
                · exact hmoved
                · next hdone =>
                    rw [hphase] at hapart
                    have hputs := hapart hold hnot hripe (Bool.eq_false_iff.mpr hdone)
                    apply sound_erase hmoved ?_ hputs
                    intro blob row hrow hrel
                    refine hwas blob row rel hrow hrel ⟨hripe, ?_⟩
                    rw [hphase]
                    exact ⟨hnot, .file rel modified, .head _, rfl, hold⟩
            · exact hmoving (wait sweep.now sweep.before sweep.next (.file rel)) world.files
                world.asides (fun _ h => h) noOlder_refl

/-- A file of a row that a listing finds old was old when the paths were read. -/
theorem sound_list (hsound : Sound layout world) (hsweep : world.sweeps.get id = some sweep)
    {named : List String} (hphase : sweep.phase = .listing named) :
    Sound layout (world.setPhase id sweep (.removing named
      ((world.files.rows.map fun file => .file file.1 file.2) ++
        world.asides.rows.map fun file => .aside file.1 file.2))) := by
  refine sound_phase hsound hsweep (by rw [hphase]; rfl)
    { sweep with
      phase := .removing named
        ((world.files.rows.map fun file => .file file.1 file.2) ++
          world.asides.rows.map fun file => .aside file.1 file.2) }
    rfl (fun _ _ _ h => (by cases h)) world.files world.asides ?_ (fun _ h => h) noOlder_refl
  rintro blob row rel hrow hrel ⟨hripe, hnot, item, hitem, hfile, hold⟩
  refine (hsound.sweeps id sweep hsweep).spares blob row rel hrow hrel ⟨hripe, ?_⟩
  rw [hphase]
  refine ⟨hnot, .inl ⟨item.modified, ?_, hold⟩⟩
  rw [hfile, List.mem_append] at hitem
  rcases hitem with hin | hin
  · obtain ⟨file, hlisted, hsame⟩ := List.mem_map.mp hin
    obtain ⟨hname, htime⟩ := Stored.file.inj hsame
    rw [← hname, ← htime]
    exact Table.mem_rows.mp hlisted
  · obtain ⟨_, _, hsame⟩ := List.mem_map.mp hin
    cases hsame

end Phases

/-! ## Runs -/

section Runs

/-- The sweep an event is of. -/
def Event.sweeper : Event Content → Option Nat
  | .scan id | .sift id | .begin id | .delete id _ | .commitSweep id | .rollback id
  | .dropAside id _ | .readPaths id | .list id | .remove id _ | .keep id | .failSweep id => some id
  | _ => none

variable {world : World Content}

variable {event : Event Content}

theorem sound_sweepStep (hsound : Sound layout world)
    (hsweep : world.sweeps.get id = some sweep) (hid : event.sweeper = some id)
    (hapart : Apart layout world event) (hstep : sweepStep tables world id sweep event = some next)
    : Sound layout next := by
  have hquiet : goneOf sweep.phase = [] → ∀ moved : Sweep Content, moved.now = sweep.now →
      (∀ todo gone aside, moved.phase ≠ .deleting todo gone aside) →
      (∀ rel, ¬ Removes world.files world.asides moved rel) →
      Sound layout { world with sweeps := world.sweeps.set id moved } :=
    fun hidle moved hnow hphase hspares => sound_phase hsound hsweep hidle moved hnow hphase
      world.files world.asides (fun _ _ rel _ _ => hspares rel) (fun _ h => h) noOlder_refl
  cases sweeps_of_sweepStep hstep with
  | scan hphase =>
    exact hquiet (by rw [hphase]; rfl) _ rfl (fun _ _ _ h => (by cases h)) fun _ h => h.2
  | sift hphase _ _ hnext =>
    rcases hnext with rfl | rfl
    · exact hquiet (by rw [hphase]; rfl) _ rfl (fun _ _ _ h => (by cases h)) fun _ h => h.2
    · exact hquiet (by rw [hphase]; rfl) _ rfl (fun _ _ _ h => (by cases h)) fun _ h => h.2
  | begin hphase hwriter => exact sound_begin hsound hsweep hphase hwriter
  | @delete other _ _ _ _ fails hphase =>
    obtain rfl : other = id := Option.some.inj hid
    exact sound_deleteRow hsound hsweep hphase fails (hapart sweep hsweep)
  | commitSweep hphase => exact sound_commitSweep hsound hsweep hphase
  | @rollback other _ _ hphase =>
    obtain rfl : other = id := Option.some.inj hid
    have hback := hapart sweep hsweep
    rw [hphase] at hback
    exact sound_rollback hsound hsweep hphase hback
  | @dropAside _ rel rest asides _ hphase hasides =>
    have hidle : goneOf sweep.phase = [] := by rw [hphase]; rfl
    refine sound_phase hsound hsweep hidle { sweep with phase := .dropping rest } rfl
      (fun _ _ _ h => (by cases h)) world.files asides (fun _ _ _ _ _ h => h.2) (fun _ h => h) ?_
    rcases hasides with rfl | rfl
    · exact noOlder_refl
    · exact fun _ _ _ hold => oldCopy_drop hold
  | readPaths hphase =>
    refine sound_phase hsound hsweep (by rw [hphase]; rfl)
      { sweep with phase := .listing (world.rows.values.filterMap Row.path) } rfl
      (fun _ _ _ h => (by cases h)) world.files world.asides ?_ (fun _ h => h) noOlder_refl
    -- The paths just read are those of every row.
    rintro blob row rel hrow hrel ⟨_, hnot, _⟩
    exact hnot (List.mem_filterMap.mpr ⟨row, mem_values hrow, hrel⟩)
  | list hphase => exact sound_list hsound hsweep hphase
  | @remove other _ _ _ fails hphase =>
    obtain rfl : other = id := Option.some.inj hid
    exact sound_removeFile hsound hsweep hphase fails (hapart sweep hsweep)
  | keep hphase =>
    exact sound_end hsound id rfl (idle_of hsweep (by rw [hphase]; rfl)) ⟨rfl, rfl, rfl⟩ rfl rfl rfl
  | @breaksOff other _ _ _ hphase =>
    obtain rfl : other = id := Option.some.inj hid
    have hplace := hapart sweep hsweep
    rw [hphase] at hplace
    exact sound_undone hsound hsweep hphase ⟨rfl, rfl, rfl⟩ (fun _ h => h) noOlder_refl hplace rfl
  | fails hphase =>
    have hidle : goneOf sweep.phase = [] := by
      cases hwas : sweep.phase with
      | deleting todo gone aside => exact absurd hwas (hphase todo gone aside)
      | scanning | ripe | dropping | listing | removing => rfl
    exact sound_end hsound id rfl (idle_of hsweep hidle) ⟨rfl, rfl, rfl⟩ rfl rfl rfl

variable [DecidableEq Content]

theorem sound_step (hsound : Sound layout world) (hapart : Apart layout world event)
    (hstep : step layout tables world event = some next) :
    Sound layout next := by
  have hsweeping : ∀ id, event.sweeper = some id →
      ((world.sweeps.get id).bind fun sweep => sweepStep tables world id sweep event) = some next →
      Sound layout next := by
    intro id hid hbind
    obtain ⟨sweep, hsweep, hswept⟩ := Option.bind_eq_some_iff.mp hbind
    exact sound_sweepStep hsound hsweep hid hapart hswept
  cases event with
  | tick seconds =>
    cases hstep
    exact sound_tick hsound seconds
  | put id bytes =>
    simp only [step] at hstep
    split at hstep
    · cases hstep
      exact sound_stage hsound id bytes
    · cases hstep
  | place id =>
    obtain ⟨put, hput, hplaced⟩ := Option.bind_eq_some_iff.mp hstep
    exact sound_placed hsound hput hplaced
  | look id found =>
    simp only [step] at hstep
    split at hstep
    · next bytes hput =>
        split at hstep
        · next hfinds =>
            cases hstep
            exact sound_looked hsound hput hfinds hapart
        · cases hstep
    · cases hstep
  | record id fresh =>
    simp only [step] at hstep
    split at hstep
    · next bytes found hput =>
        split at hstep
        · next hguard =>
            cases hstep
            exact sound_record hsound hput hguard.1 hguard.2 (hapart _ hput)
        · cases hstep
    · cases hstep
  | fail id =>
    cases hstep
    exact sound_fail hsound id
  | commit add remove =>
    simp only [step] at hstep
    split at hstep
    · cases hstep
      exact sound_rename hsound _
    · cases hstep
  | sweep id =>
    simp only [step] at hstep
    split at hstep
    · next hfree =>
        cases hstep
        exact sound_sweepStart hsound hfree
    · cases hstep
  | scan id | sift id | begin id | delete id _ | commitSweep id | rollback id | dropAside id _
  | readPaths id | list id | remove id _ | keep id | failSweep id => exact hsweeping id rfl hstep

end Runs

end Mailo.Store.Blob
