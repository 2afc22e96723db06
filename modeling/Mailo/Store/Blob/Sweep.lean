import Mailo.Domain.State
import Mailo.Library.Table

/-!
# Stored bytes, and the sweep that takes them back

Puts, commits and sweeps of any number of processes over one blob store, a system call or a statement
at a time. Contents are told apart by their hash, so a content stands for its own hash here. Times are
in seconds.
-/

namespace Mailo.Store.Blob

open Domain Library

/-- Where contents go: whether one is too large for its row, and the path its hash gives it. -/
structure Layout (Content : Type) where
  large : Content → Bool
  rel : Content → String

/-- A row of `blobs`, by what a sweep and a put read of it. -/
structure Row (Content : Type) where
  hash : Content
  path : Option String
  created : Int
deriving DecidableEq

inductive Candidate where
  | blob (id : BlobId)
  | file (rel : String)
deriving DecidableEq

def blobGrace : Int := 60 * 60

def blobGraceDelete : Int := 24 * 60 * 60

/-- How long a blob or its file may go unused before a put of the same bytes says so again. -/
def refreshAfter : Int := 30 * 60

variable {Content : Type}

/-- The file of a content, none for one small enough to live in its row. -/
def Layout.path (layout : Layout Content) (bytes : Content) : Option String :=
  if layout.large bytes then some (layout.rel bytes) else none

/-- A put: the file looked for, then in place, then the row looked up. -/
inductive Put (Content : Type) where
  | missing (bytes : Content)
  | present (bytes : Content)
  | staged (bytes : Content)
  | looked (bytes : Content) (found : Option BlobId)
deriving DecidableEq

/-- A file the sweep listed, with when it was last written. -/
inductive Stored where
  | file (rel : String) (modified : Int)
  | aside (rel : String) (modified : Int)
deriving DecidableEq

def Stored.modified : Stored → Int
  | .file _ modified | .aside _ modified => modified

inductive Phase (Content : Type) where
  /-- Reading every table for the ids it names. -/
  | scanning (unused : List (BlobId × Row Content)) (table : Nat)
  | ripe (unused : List (BlobId × Row Content))
  /-- In the transaction that deletes the rows. -/
  | deleting (todo : List (BlobId × Row Content)) (gone : List BlobId) (aside : List String)
  | dropping (aside : List String)
  | listing (named : List String)
  | removing (named : List String) (todo : List Stored)
deriving DecidableEq

structure Sweep (Content : Type) where
  now : Int
  /-- What earlier sweeps saw unnamed. -/
  before : Table Candidate Int
  /-- What the next one is told. -/
  next : Table Candidate Int
  phase : Phase Content

structure World (Content : Type) where
  clock : Int
  rows : Table BlobId (Row Content)
  /-- The ids each of the scanned tables names. -/
  names : List (Nat × BlobId)
  files : Table String Int
  asides : Table String Int
  candidates : Table Candidate Int
  puts : Table Nat (Put Content)
  sweeps : Table Nat (Sweep Content)
  /-- The sweep whose transaction is open. -/
  writer : Option Nat
  /-- What each put returned, and when. -/
  returned : List (BlobId × Int)
  /-- What a commit left unnamed, and when. -/
  dropped : List (BlobId × Int)

def World.start (clock : Int) : World Content :=
  ⟨clock, .empty, [], .empty, .empty, .empty, .empty, .empty, none, [], []⟩

inductive Event (Content : Type) where
  | tick (seconds : Nat)
  | put (id : Nat) (bytes : Content)
  /-- It writes the file, or says the one there is in use. -/
  | place (id : Nat)
  | look (id : Nat) (found : Option BlobId)
  | record (id : Nat) (fresh : BlobId)
  | fail (id : Nat)
  /-- A transaction of the store: what it names and what it no longer does. -/
  | commit (add remove : List (Nat × BlobId))
  | sweep (id : Nat)
  | scan (id : Nat)
  /-- The list of what earlier sweeps saw is read. -/
  | sift (id : Nat)
  | begin (id : Nat)
  | delete (id : Nat) (fails : Bool)
  | commitSweep (id : Nat)
  | rollback (id : Nat)
  | dropAside (id : Nat) (fails : Bool)
  | readPaths (id : Nat)
  | list (id : Nat)
  | remove (id : Nat) (fails : Bool)
  | keep (id : Nat)
  | failSweep (id : Nat)
deriving DecidableEq

/-- What was seen unnamed long enough ago is taken; the rest wait. -/
def isRipe (now : Int) (before : Table Candidate Int) (what : Candidate) : Bool :=
  match before.get what with
  | some first => first ≤ now - blobGraceDelete
  | none => false

/-- What goes on the list, with the time it was first seen unnamed. -/
def wait (now : Int) (before next : Table Candidate Int) (what : Candidate) : Table Candidate Int :=
  next.set what ((before.get what).getD now)

/-- The list after the blobs of a scan: those not ripe wait. -/
def waitAll (now : Int) (before : Table Candidate Int) :
    List (BlobId × Row Content) → Table Candidate Int
  | [] => .empty
  | row :: rest =>
    if isRipe now before (.blob row.1) then waitAll now before rest
    else wait now before (waitAll now before rest) (.blob row.1)

/-- Whether a row that is not gone has the path. -/
def shared (rows : Table BlobId (Row Content)) (gone : List BlobId) (rel : String) : Bool :=
  rows.rows.any fun row => row.1 ∉ gone && row.2.path = some rel

def World.setAside (world : World Content) (rel : String) : World Content :=
  match world.files.get rel with
  | none => world
  | some modified =>
    { world with files := world.files.erase rel, asides := world.asides.set rel modified }

def World.bringBack (world : World Content) (rel : String) : World Content :=
  match world.asides.get rel with
  | none => world
  | some modified =>
    { world with files := world.files.set rel modified, asides := world.asides.erase rel }

/-! ## Steps -/

section Step

variable [DecidableEq Content] (layout : Layout Content)

def World.setPut (world : World Content) (id : Nat) (put : Put Content) : World Content :=
  { world with puts := world.puts.set id put }

def World.setPhase (world : World Content) (id : Nat) (sweep : Sweep Content)
    (phase : Phase Content) : World Content :=
  { world with sweeps := world.sweeps.set id { sweep with phase := phase } }

/-- A put starts: the file is looked for whether or not a row names it. -/
def stage (world : World Content) (bytes : Content) : Put Content :=
  match layout.path bytes with
  | none => .staged bytes
  | some rel => if world.files.contains rel then .present bytes else .missing bytes

/-- The file is written, or the one there said to be in use if it has not been for a while. -/
def place (world : World Content) (rel : String) (there : Bool) : World Content :=
  if there then
    { world with files := world.files.modify rel fun modified =>
        if modified < world.clock - refreshAfter then world.clock else modified }
  else { world with files := world.files.set rel world.clock }

/-- What a lookup by hash may find. -/
def Finds (world : World Content) (bytes : Content) : Option BlobId → Prop
  | some blob => (world.rows.get blob).map Row.hash = some bytes
  | none => ∀ row ∈ world.rows.rows, row.2.hash ≠ bytes

instance (world : World Content) (bytes : Content) (found : Option BlobId) :
    Decidable (Finds world bytes found) := by
  cases found <;> unfold Finds <;> infer_instance

/-- A row put again, said to be in use if that was not said for a while. -/
def Row.refresh (now : Int) (row : Row Content) : Row Content :=
  if row.created < now - refreshAfter then { row with created := now } else row

/-- A row is written: bytes already recorded keep their id, said to be in use again. -/
def record (world : World Content) (bytes : Content) (found : Option BlobId) (fresh : BlobId) :
    World Content :=
  match found with
  | some blob =>
    { world with
      rows := world.rows.modify blob (Row.refresh world.clock)
      returned := world.returned ++ [(blob, world.clock)] }
  | none =>
    { world with
      rows := world.rows.set fresh ⟨bytes, layout.path bytes, world.clock⟩
      returned := world.returned ++ [(fresh, world.clock)] }

/-- The blobs named before and no longer. -/
def unnamed (names next : List (Nat × BlobId)) : List BlobId :=
  (names.map Prod.snd).filter (· ∉ next.map Prod.snd)

/-- The names that a commit leaves. -/
def renamed (names add remove : List (Nat × BlobId)) : List (Nat × BlobId) :=
  names.filter (· ∉ remove) ++ add

def World.rename (world : World Content) (names : List (Nat × BlobId)) : World Content :=
  { world with
    names := names
    dropped := world.dropped ++ (unnamed world.names names).map fun blob => (blob, world.clock) }

def putStep (world : World Content) (id : Nat) : Put Content → Option (World Content)
  | .missing bytes =>
    (layout.path bytes).map fun rel => (place world rel false).setPut id (.staged bytes)
  | .present bytes =>
    (layout.path bytes).map fun rel => (place world rel true).setPut id (.staged bytes)
  | _ => none

def unusedAt (world : World Content) : List (BlobId × Row Content) :=
  world.rows.rows.filter fun row => row.2.created < world.clock - blobGrace

/-- One row of the transaction: looked at again, and its file set aside where no other row has it. -/
def deleteRow (world : World Content) (id : Nat) (sweep : Sweep Content)
    (row : BlobId × Row Content) (todo : List (BlobId × Row Content)) (gone : List BlobId)
    (aside : List String) (fails : Bool) : World Content :=
  match world.rows.get row.1 with
  | none => world.setPhase id sweep (.deleting todo gone aside)
  | some current =>
    if current.created < sweep.now - blobGrace ∧ row.1 ∉ gone then
      match row.2.path with
      | none => world.setPhase id sweep (.deleting todo (gone ++ [row.1]) aside)
      | some rel =>
        if shared world.rows (gone ++ [row.1]) rel ∨ fails = true then
          world.setPhase id sweep (.deleting todo (gone ++ [row.1]) aside)
        else
          (world.setAside rel).setPhase id sweep
            (.deleting todo (gone ++ [row.1]) (aside ++ [rel]))
    else world.setPhase id sweep (.deleting todo gone aside)

/-- One file of the listing: those no row names, left while they are fresh. -/
def removeFile (world : World Content) (id : Nat) (sweep : Sweep Content) (named : List String)
    (item : Stored) (todo : List Stored) (fails : Bool) : World Content :=
  let next := world.setPhase id sweep (.removing named todo)
  if sweep.now - blobGrace < item.modified then next
  else
    match item with
    | .aside rel _ =>
      if fails then next
      else if rel ∈ named then next.bringBack rel
      else { next with asides := next.asides.erase rel }
    | .file rel _ =>
      if rel ∈ named then next
      else if isRipe sweep.now sweep.before (.file rel) then
        if fails then next else { next with files := next.files.erase rel }
      else
        world.setPhase id { sweep with next := wait sweep.now sweep.before sweep.next (.file rel) }
          (.removing named todo)

/-- A sweep's step from where it is, over the scanned tables. -/
def sweepStep (tables : Nat) (world : World Content) (id : Nat) (sweep : Sweep Content) :
    Event Content → Option (World Content)
  | .scan _ =>
    match sweep.phase with
    | .scanning unused table =>
      if unused ≠ [] ∧ table < tables then
        some (world.setPhase id sweep
          (.scanning (unused.filter fun row => (table, row.1) ∉ world.names) (table + 1)))
      else none
    | _ => none
  | .sift _ =>
    match sweep.phase with
    | .scanning unused table =>
      if unused = [] ∨ table = tables then
        let before := world.candidates
        let ripe := unused.filter fun row => isRipe sweep.now before (.blob row.1)
        some (world.setPhase id
          { sweep with before := before, next := waitAll sweep.now before unused }
          (if ripe = [] then .dropping [] else .ripe ripe))
      else none
    | _ => none
  | .begin _ =>
    match sweep.phase with
    | .ripe unused =>
      if world.writer = none then
        some { world.setPhase id sweep (.deleting unused [] []) with writer := some id }
      else none
    | _ => none
  | .delete _ fails =>
    match sweep.phase with
    | .deleting (row :: todo) gone aside =>
      some (deleteRow world id sweep row todo gone aside fails)
    | _ => none
  | .commitSweep _ =>
    match sweep.phase with
    | .deleting [] gone aside =>
      some { world.setPhase id sweep (.dropping aside) with
        rows := world.rows.filter fun blob _ => blob ∉ gone
        writer := none }
    | _ => none
  | .rollback _ =>
    match sweep.phase with
    | .deleting [] _ aside =>
      some { aside.foldl World.bringBack world with
        writer := none
        sweeps := world.sweeps.erase id }
    | _ => none
  | .dropAside _ fails =>
    match sweep.phase with
    | .dropping (rel :: rest) =>
      let next := world.setPhase id sweep (.dropping rest)
      some (if fails then next else { next with asides := next.asides.erase rel })
    | _ => none
  | .readPaths _ =>
    match sweep.phase with
    | .dropping [] =>
      some (world.setPhase id sweep (.listing (world.rows.values.filterMap Row.path)))
    | _ => none
  | .list _ =>
    match sweep.phase with
    | .listing named =>
      some (world.setPhase id sweep (.removing named
        ((world.files.rows.map fun file => .file file.1 file.2) ++
          world.asides.rows.map fun file => .aside file.1 file.2)))
    | _ => none
  | .remove _ fails =>
    match sweep.phase with
    | .removing named (item :: todo) => some (removeFile world id sweep named item todo fails)
    | _ => none
  | .keep _ =>
    match sweep.phase with
    | .removing _ [] =>
      some { world with candidates := sweep.next, sweeps := world.sweeps.erase id }
    | _ => none
  | .failSweep _ =>
    match sweep.phase with
    -- The rows are back; what was set aside stays there.
    | .deleting _ _ _ => some { world with writer := none, sweeps := world.sweeps.erase id }
    | _ => some { world with sweeps := world.sweeps.erase id }
  | _ => none

/-- One step, `none` for one that cannot be taken there. -/
def step (tables : Nat) (world : World Content) : Event Content → Option (World Content)
  | .tick seconds => some { world with clock := world.clock + seconds }
  | .put id bytes =>
    match world.puts.get id with
    | none => some (world.setPut id (stage layout world bytes))
    | some _ => none
  | .place id => (world.puts.get id).bind fun put => putStep layout world id put
  | .look id found =>
    match world.puts.get id with
    | some (.staged bytes) =>
      if Finds world bytes found then some (world.setPut id (.looked bytes found)) else none
    | _ => none
  | .record id fresh =>
    match world.puts.get id with
    | some (.looked bytes found) =>
      if world.writer = none ∧ (found = none → world.rows.get fresh = none) then
        let written := record layout world bytes found fresh
        some { written with puts := written.puts.erase id }
      else none
    | _ => none
  | .fail id => some { world with puts := world.puts.erase id }
  | .commit add remove =>
    if world.writer = none ∧ ∀ name ∈ add, name.1 < tables then
      some (world.rename (renamed world.names add remove))
    else none
  | .sweep id =>
    match world.sweeps.get id with
    | none =>
      some { world with
        sweeps := world.sweeps.set id
          ⟨world.clock, .empty, .empty, .scanning (unusedAt world) 0⟩ }
    | some _ => none
  | event@(.scan id) | event@(.sift id) | event@(.begin id) | event@(.delete id _)
  | event@(.commitSweep id) | event@(.rollback id) | event@(.dropAside id _)
  | event@(.readPaths id) | event@(.list id) | event@(.remove id _) | event@(.keep id)
  | event@(.failSweep id) =>
    (world.sweeps.get id).bind fun sweep => sweepStep tables world id sweep event

def run (tables : Nat) (world : World Content) : List (Event Content) → Option (World Content)
  | [] => some world
  | event :: rest => (step layout tables world event).bind fun next => run tables next rest

end Step

/-- What a step of a sweep is, by where the sweep is. -/
inductive Sweeps (tables : Nat) (world : World Content) (id : Nat) (sweep : Sweep Content) :
    Event Content → World Content → Prop
  | scan {other table : Nat} {unused : List (BlobId × Row Content)}
    (hphase : sweep.phase = .scanning unused table) (hmore : unused ≠ [] ∧ table < tables) :
    Sweeps tables world id sweep (.scan other) (world.setPhase id sweep
      (.scanning (unused.filter fun row => (table, row.1) ∉ world.names) (table + 1)))
  | sift {other table : Nat} {unused ripe : List (BlobId × Row Content)} {phase : Phase Content}
    (hphase : sweep.phase = .scanning unused table) (hdone : unused = [] ∨ table = tables)
    (hripe : ripe = unused.filter fun row => isRipe sweep.now world.candidates (.blob row.1))
    (hnext : phase = .dropping [] ∨ phase = .ripe ripe) :
    Sweeps tables world id sweep (.sift other) (world.setPhase id
      { sweep with
        before := world.candidates, next := waitAll sweep.now world.candidates unused } phase)
  | begin {other : Nat} {unused : List (BlobId × Row Content)}
    (hphase : sweep.phase = .ripe unused) (hwriter : world.writer = none) :
    Sweeps tables world id sweep (.begin other)
      { world.setPhase id sweep (.deleting unused [] []) with writer := some id }
  | delete {other : Nat} {row : BlobId × Row Content} {todo : List (BlobId × Row Content)}
    {gone : List BlobId} {aside : List String} {fails : Bool}
    (hphase : sweep.phase = .deleting (row :: todo) gone aside) :
    Sweeps tables world id sweep (.delete other fails)
      (deleteRow world id sweep row todo gone aside fails)
  | commitSweep {other : Nat} {gone : List BlobId} {aside : List String}
    (hphase : sweep.phase = .deleting [] gone aside) :
    Sweeps tables world id sweep (.commitSweep other)
      { world.setPhase id sweep (.dropping aside) with
        rows := world.rows.filter fun blob _ => blob ∉ gone
        writer := none }
  | rollback {other : Nat} {gone : List BlobId} {aside : List String}
    (hphase : sweep.phase = .deleting [] gone aside) :
    Sweeps tables world id sweep (.rollback other)
      { aside.foldl World.bringBack world with
        writer := none
        sweeps := world.sweeps.erase id }
  | dropAside {other : Nat} {rel : String} {rest : List String} {asides : Table String Int}
    {fails : Bool} (hphase : sweep.phase = .dropping (rel :: rest))
    (hasides : asides = world.asides ∨ asides = world.asides.erase rel) :
    Sweeps tables world id sweep (.dropAside other fails)
      { world.setPhase id sweep (.dropping rest) with asides := asides }
  | readPaths {other : Nat} (hphase : sweep.phase = .dropping []) :
    Sweeps tables world id sweep (.readPaths other)
      (world.setPhase id sweep (.listing (world.rows.values.filterMap Row.path)))
  | list {other : Nat} {named : List String} (hphase : sweep.phase = .listing named) :
    Sweeps tables world id sweep (.list other) (world.setPhase id sweep (.removing named
      ((world.files.rows.map fun file => .file file.1 file.2) ++
        world.asides.rows.map fun file => .aside file.1 file.2)))
  | remove {other : Nat} {named : List String} {item : Stored} {todo : List Stored} {fails : Bool}
    (hphase : sweep.phase = .removing named (item :: todo)) :
    Sweeps tables world id sweep (.remove other fails)
      (removeFile world id sweep named item todo fails)
  | keep {other : Nat} {named : List String} (hphase : sweep.phase = .removing named []) :
    Sweeps tables world id sweep (.keep other)
      { world with candidates := sweep.next, sweeps := world.sweeps.erase id }
  | breaksOff {other : Nat} {todo : List (BlobId × Row Content)} {gone : List BlobId}
    {aside : List String} (hphase : sweep.phase = .deleting todo gone aside) :
    Sweeps tables world id sweep (.failSweep other)
      { world with writer := none, sweeps := world.sweeps.erase id }
  | fails {other : Nat} (hphase : ∀ todo gone aside, sweep.phase ≠ .deleting todo gone aside) :
    Sweeps tables world id sweep (.failSweep other)
      { world with sweeps := world.sweeps.erase id }

theorem sweeps_of_sweepStep {tables id : Nat} {world next : World Content} {sweep : Sweep Content}
    {event : Event Content} (hstep : sweepStep tables world id sweep event = some next) :
    Sweeps tables world id sweep event next := by
  cases event with
  | scan other =>
    simp only [sweepStep] at hstep
    split at hstep
    · next hphase =>
        obtain ⟨hmore, hsame⟩ := Option.ite_none_right_eq_some.mp hstep
        cases hsame
        exact .scan hphase hmore
    · cases hstep
  | sift other =>
    simp only [sweepStep] at hstep
    split at hstep
    · next hphase =>
        obtain ⟨hdone, hsame⟩ := Option.ite_none_right_eq_some.mp hstep
        cases hsame
        refine .sift hphase hdone rfl ?_
        split
        · exact .inl rfl
        · exact .inr rfl
    · cases hstep
  | begin other =>
    simp only [sweepStep] at hstep
    split at hstep
    · next hphase =>
        obtain ⟨hwriter, hsame⟩ := Option.ite_none_right_eq_some.mp hstep
        cases hsame
        exact .begin hphase hwriter
    · cases hstep
  | dropAside other fails =>
    simp only [sweepStep] at hstep
    split at hstep
    · next hphase =>
        cases hstep
        cases fails with
        | true => exact .dropAside hphase (.inl rfl)
        | false => exact .dropAside hphase (.inr rfl)
    · cases hstep
  | failSweep other =>
    simp only [sweepStep] at hstep
    split at hstep
    · next hphase =>
        cases hstep
        exact .breaksOff hphase
    · next hphase =>
        cases hstep
        exact .fails hphase
  | delete other fails | commitSweep other | rollback other | readPaths other | list other
  | remove other fails | keep other =>
    simp only [sweepStep] at hstep
    split at hstep
    · next hphase =>
        cases hstep
        constructor
        exact hphase
    · cases hstep
  | tick | put | place | look | record | fail | commit | sweep => cases hstep

end Mailo.Store.Blob
