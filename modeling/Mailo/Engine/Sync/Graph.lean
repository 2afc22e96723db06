import Mailo.Library.Table
import Mailo.Runtime.Graph.Delta

/-!
# A pass over one folder read through Graph

What a walk gathered is kept in one order: a reset first, then the messages new to the folder, then
flags, then removals, and the cursor last. A message is found by its key, so that two of the
server's items may be one message here.
-/

namespace Mailo.Engine.Graph

open Domain Library Runtime.Graph

/-- What the store holds of one folder: the addresses in it, each of the message at it, and the
messages, some of them also addressed elsewhere. -/
structure Rows where
  cursor : Option String
  remotes : Table String MessageKey
  elsewhere : List MessageKey
  messages : Table MessageKey Flags
deriving DecidableEq

namespace Rows

/-- Every address of the folder is stale. -/
def reset (rows : Rows) : Rows := { rows with remotes := .empty }

section Keep

variable (keyOf : String → MessageKey)

/-- Keep the headers of a message new to this folder: unread, until the server says what it is. -/
def absorb (rows : Rows) (id : String) : Rows :=
  { rows with
    remotes := rows.remotes.set id (keyOf id)
    messages := rows.messages.insertNew (keyOf id) (.unread, .unstarred) }

def flag (rows : Rows) (entry : String × Flags) : Rows :=
  match rows.remotes.get entry.1 with
  | none => rows
  | some key => { rows with messages := rows.messages.modify key fun _ => entry.2 }

/-- An address the folder no longer has; a message goes with its last one. -/
def leave (rows : Rows) (id : String) : Rows :=
  match rows.remotes.get id with
  | none => rows
  | some key =>
    let left := { rows with remotes := rows.remotes.erase id }
    if left.remotes.values.contains key || left.elsewhere.contains key then left
    else { left with messages := left.messages.erase key }

def setCursor (rows : Rows) : Option String → Rows
  | some link => { rows with cursor := some link }
  | none => rows

/-- Keep what a walk gathered. One that said nothing, and left the cursor where it was, has nothing
to write. -/
def keep (rows : Rows) (walk : Walk) : Rows :=
  let reset := if walk.validity = .reset then rows.reset else rows
  let absorbed := (walk.described.filter fun id => !reset.remotes.contains id).foldl
    (absorb keyOf) reset
  if walk.flags.isEmpty && walk.gone.isEmpty && walk.cursor = absorbed.cursor then absorbed
  else (walk.gone.foldl leave (walk.flags.foldl flag absorbed)).setCursor walk.cursor

/-- The flags of the message held at an address. -/
def held (rows : Rows) (id : String) : Option Flags := (rows.remotes.get id).bind rows.messages.get

end Keep

end Rows

/-! ## The server, and the runs -/

/-- What the folder is, item by item. -/
abbrev Folder := String → Option Flags

/-- The folder as it is now, what every link's walk comes to up to it, and for the links that ended
one the folder as it was when they were given. -/
structure Server where
  folder : Folder
  told : String → Option Folder
  ended : String → Option Folder

/-- The server answers a page: one link, which stands for what the walk has come to with it, and a
walk ends only where that is the folder as it is. -/
inductive Server.Answers (server : Server) (url : String) (page : Page) : Server → Prop where
  | last (told : Folder) (link : String) (followed : server.told url = some told)
      (ends : page.deltaLink = some link)
      (current : Said.tellAll told page.value = server.folder)
      (new : ∀ other, server.told link = some other → other = server.folder) :
      Server.Answers server url page
        { server with
          told := Function.update server.told link (some server.folder)
          ended := Function.update server.ended link (some server.folder) }
  | next (told : Folder) (link : String) (followed : server.told url = some told)
      (goes : page.deltaLink = none) (onward : page.nextLink = some link)
      (new : ∀ other, server.told link = some other → other = Said.tellAll told page.value) :
      Server.Answers server url page
        { server with
          told := Function.update server.told link (some (Said.tellAll told page.value)) }

inductive Phase where
  | idle
  | walking (perPass : Nat) (walk : Walk)
  /-- The walk is over, and its messages' headers are still asked for. -/
  | ended (walk : Walk)

structure World where
  server : Server
  rows : Rows
  phase : Phase
  /-- What was held as the walk began, nothing where it started over. -/
  base : Folder
  /-- What the walk's pages have said since. -/
  log : List Entry

inductive Event where
  | change (folder : Folder)
  | start (budget : Nat)
  | page (page : Page)
  | expired
  /-- A request fails, or the pass is stopped: nothing of it is kept. -/
  | failed
  | kept
  /-- What else is written: other folders' addresses, and the messages, of which none that this
  folder has leaves. -/
  | beside (elsewhere : List MessageKey) (messages : Table MessageKey Flags)

/-- Where a turn leaves a pass. -/
def phaseOf (perPass : Nat) : Turn → Phase
  | .on walk => .walking perPass walk
  | .ended walk => .ended walk
  | .failed => .idle

/-- One step of a world whose folder's delta begins at `first`. -/
inductive Step (keyOf : String → MessageKey) (first : String) : World → Event → World → Prop where
  | change (world : World) (folder : Folder) :
      Step keyOf first world (.change folder)
        { world with server := { world.server with folder := folder } }
  | start (world : World) (budget : Nat) (idle : world.phase = .idle) :
      Step keyOf first world (.start budget)
        { world with
          phase := .walking (max budget 1) (.start first world.rows.cursor)
          base := world.rows.held
          log := [] }
  | page (world : World) (server : Server) (perPass : Nat) (walk : Walk) (page : Page)
      (walking : world.phase = .walking perPass walk)
      (answers : world.server.Answers walk.url page server) :
      Step keyOf first world (.page page)
        { world with
          server := server
          phase := phaseOf perPass (walk.page perPass page)
          log := world.log ++ page.value }
  | expired (world : World) (perPass : Nat) (walk : Walk)
      (walking : world.phase = .walking perPass walk) :
      Step keyOf first world .expired
        { world with
          phase := phaseOf perPass (walk.expired first)
          base := fun _ => none
          log := [] }
  | failed (world : World) : Step keyOf first world .failed { world with phase := .idle }
  | kept (world : World) (walk : Walk) (ended : world.phase = .ended walk) :
      Step keyOf first world .kept
        { world with rows := world.rows.keep keyOf walk, phase := .idle }
  | beside (world : World) (elsewhere : List MessageKey) (messages : Table MessageKey Flags)
      (stay : ∀ id key, world.rows.remotes.get id = some key →
        ∃ flags, messages.get key = some flags) :
      Step keyOf first world (.beside elsewhere messages)
        { world with
          rows := { world.rows with elsewhere := elsewhere, messages := messages } }

/-- The delta of an account just added: nothing held, and no link given but the first. -/
def World.start (first : String) (folder : Folder) (elsewhere : List MessageKey)
    (messages : Table MessageKey Flags) : World where
  server := ⟨folder, Function.update (fun _ => none) first (some fun _ => none), fun _ => none⟩
  rows := ⟨none, .empty, elsewhere, messages⟩
  phase := .idle
  base := fun _ => none
  log := []

end Mailo.Engine.Graph
