import Mailo.Domain.State
import Mailo.Domain.Threading.Ids
import Mailo.Library.ParentForest
import Mailo.Library.Table
import Mailo.Library.UnionFind
import Mathlib.Data.List.Sort

/-!
# Conversation threading

Two structures over one arena of containers: a forest, each container with at most one parent,
and a partition of the containers. The forest refuses a link that would close a cycle; the
partition records the relation all the same, and is what a thread is. Pruning and the subject
fallback read the forest; the ids handed out read the partition.
-/

namespace Mailo.Domain.Threading

open Library

/-- An id that has been heard of, with or without its message. -/
structure Container where
  id : List Char
  msg : Option Nat
  parent : Option Nat
  children : List Nat
  dead : Bool
deriving DecidableEq

instance : Inhabited Container := ⟨⟨[], none, none, [], false⟩⟩

structure Forest where
  nodes : List Container
  table : Table (List Char) Nat
  classes : Classes

namespace Forest

def empty : Forest := ⟨[], Table.empty, Classes.empty⟩

def size (forest : Forest) : Nat := forest.nodes.length

def node (forest : Forest) (n : Nat) : Container := forest.nodes.getD n default

def modify (forest : Forest) (n : Nat) (f : Container → Container) : Forest :=
  { forest with nodes := forest.nodes.modify n f }

def parentOf (forest : Forest) (n : Nat) : Option Nat := (forest.node n).parent

def push (forest : Forest) (id : List Char) : Forest × Nat :=
  ({ forest with
      nodes := forest.nodes ++ [{ (default : Container) with id := id }]
      classes := forest.classes.push }, forest.size)

def intern (forest : Forest) (id : List Char) : Forest × Nat :=
  match forest.table.get id with
  | some place => (forest, place)
  | none =>
    let (forest, place) := forest.push id
    ({ forest with table := forest.table.set id place }, place)

def seatAlone (forest : Forest) (i : Nat) : Forest × Nat :=
  let (forest, place) := forest.push []
  (forest.modify place fun c => { c with msg := some i }, place)

/-- Input `i` seated in the container of its id, or alone when it has none or that is taken. -/
def seat (forest : Forest) (id : List Char) (i : Nat) : Forest × Nat :=
  if id.isEmpty then forest.seatAlone i
  else
    let (forest, place) := forest.intern id
    if (forest.node place).msg.isNone then
      (forest.modify place fun c => { c with msg := some i }, place)
    else forest.seatAlone i

def internAll (forest : Forest) (ids : List (List Char)) : Forest × List Nat :=
  ids.foldl (fun (forest, out) id =>
    let (forest, place) := forest.intern id
    (forest, out ++ [place])) (forest, [])

/-- The containers of the ids an input names, oldest first. -/
def chain (forest : Forest) (input : ThreadInput) : Forest × List Nat :=
  forest.internAll input.chainIds

def merge (forest : Forest) (a b : Nat) : Forest :=
  { forest with classes := forest.classes.merge a b }

/-- Is `ancestor` on the parent chain of `node`, or `node` itself? A walk longer than the arena
says yes, so that a link is refused rather than looped over. -/
def descendsFrom (forest : Forest) (node ancestor : Nat) : Bool :=
  ParentForest.walk forest.parentOf ancestor (forest.size + 1) (some node)

def attach (forest : Forest) (parent child : Nat) : Forest :=
  let forest := forest.modify child fun c => { c with parent := some parent }
  let forest := forest.modify parent fun c => { c with children := c.children ++ [child] }
  forest.merge parent child

/-- `child` made a child of `parent`, unless that would close a cycle. -/
def link (forest : Forest) (parent child : Nat) : Forest :=
  if forest.descendsFrom parent child then forest
  else
    match forest.parentOf child with
    | some old =>
      if old = parent then forest
      else
        (forest.modify old fun c =>
          { c with children := c.children.filter (· != child) }).attach parent child
    | none => forest.attach parent child

def linkFree (forest : Forest) (parent child : Nat) : Forest :=
  if (forest.parentOf child).isNone then forest.link parent child else forest

end Forest

/-- The forest so far, the container each input sits in, and whether it named no reference. -/
structure Seating where
  forest : Forest
  home : List Nat
  rootless : List Bool

namespace Seating

def empty : Seating := ⟨Forest.empty, [], []⟩

def linkChain (forest : Forest) (chain : List Nat) (here : Nat) : Forest :=
  let forest := (chain.zip chain.tail).foldl (fun forest pair => forest.linkFree pair.1 pair.2)
    forest
  match chain.getLast? with
  | some last => forest.link last here
  | none => forest

def joinProvider (forest : Forest) (input : ThreadInput) (here : Nat) : Forest :=
  match input.providerId with
  | some id =>
    let (forest, key) := forest.intern (providerKey id)
    forest.merge here key
  | none => forest

def read (seating : Seating) (input : ThreadInput) : Seating :=
  let (forest, here) := seating.forest.seat input.ownId seating.home.length
  let (forest, chain) := forest.chain input
  let forest := linkChain forest chain here
  -- Everything named in one header is one conversation even where no link says so.
  let forest := chain.foldl (fun forest c => forest.merge here c) forest
  let forest := joinProvider forest input here
  ⟨forest, seating.home ++ [here], seating.rootless ++ [chain.isEmpty]⟩

def readAll (inputs : List ThreadInput) : Seating := inputs.foldl read empty

end Seating

/-- The arena, and for each container what is kept below it. -/
structure Pruning where
  forest : Forest
  kept : List (List Nat)

namespace Pruning

/-- One child of `place` taken up: kept, or spliced out with what is below it rising to `place`. -/
def takeChild (place : Nat) (taken : Pruning × List Nat) (child : Nat) : Pruning × List Nat :=
  let (⟨forest, kept⟩, out) := taken
  let below := kept.getD child []
  let kept := kept.set child []
  if (forest.node child).msg.isSome then
    (⟨forest.modify child fun c => { c with children := below }, kept⟩, out ++ [child])
  else
    let forest := forest.modify child fun c => { c with dead := true }
    let forest := below.foldl (fun forest up =>
      forest.modify up fun c => { c with parent := some place }) forest
    (⟨forest, kept⟩, out ++ below)

def finish (pruning : Pruning) (place : Nat) : Pruning :=
  let children := (pruning.forest.node place).children
  let forest := pruning.forest.modify place fun c => { c with children := [] }
  let (pruning, out) := children.foldl (takeChild place) (⟨forest, pruning.kept⟩, [])
  ⟨pruning.forest, pruning.kept.set place out⟩

/-- The walk over one tree, its work on a stack with the top first: a container not yet entered,
or one to finish. -/
def walk : Nat → List (Nat × Bool) → Pruning → Pruning
  | 0, _, pruning => pruning
  | _ + 1, [], pruning => pruning
  | fuel + 1, (place, false) :: work, pruning =>
    let children := (pruning.forest.node place).children
    walk fuel ((children.map fun c => (c, false)).reverse ++ (place, true) :: work) pruning
  | fuel + 1, (place, true) :: work, pruning => walk fuel work (pruning.finish place)

def pruneRoot (pruning : Pruning) (root : Nat) : Pruning :=
  let ⟨forest, kept⟩ := walk (2 * pruning.forest.size) [(root, false)] pruning
  let below := kept.getD root []
  let kept := kept.set root []
  match (forest.node root).msg, below with
  | some _, _ => ⟨forest.modify root fun c => { c with children := below }, kept⟩
  | none, [] => ⟨forest.modify root fun c => { c with dead := true }, kept⟩
  | none, [only] =>
    let forest := forest.modify root fun c => { c with dead := true }
    ⟨forest.modify only fun c => { c with parent := none }, kept⟩
  | none, _ => ⟨forest.modify root fun c => { c with children := below }, kept⟩

end Pruning

namespace Forest

def roots (forest : Forest) : List Nat :=
  (List.range forest.size).filter fun n => (forest.parentOf n).isNone

/-- Empty containers dropped, or spliced out with their children rising; an empty root stays
where it holds several children together. -/
def prune (forest : Forest) : Forest :=
  (forest.roots.foldl Pruning.pruneRoot ⟨forest, List.replicate forest.size []⟩).forest

def rootOf (forest : Forest) (n : Nat) : Forest × Nat :=
  let (classes, root) := forest.classes.rootOf n
  ({ forest with classes := classes }, root)

end Forest

/-- Per class, its surviving roots and how many messages it holds. -/
structure Census where
  forest : Forest
  roots : Table Nat (List Nat)
  count : Table Nat Nat

def Census.visit (census : Census) (n : Nat) : Census :=
  let (forest, «class») := census.forest.rootOf n
  let roots :=
    if !(forest.node n).dead && (forest.parentOf n).isNone then
      census.roots.set «class» ((census.roots.get «class»).getD [] ++ [n])
    else census.roots
  let count :=
    if (forest.node n).msg.isSome then
      census.count.set «class» ((census.count.get «class»).getD 0 + 1)
    else census.count
  ⟨forest, roots, count⟩

def Census.of (forest : Forest) : Census :=
  (List.range forest.size).foldl Census.visit ⟨forest, Table.empty, Table.empty⟩

/-- The classes subjects are compared for: anchors and orphans under their base subject. -/
structure Standing where
  anchors : Table (List Char) (List Nat)
  orphans : Table (List Char) (List Nat)

/-- The base subject of a class with a single root that holds a message naming no reference, and
whether it is a reply. -/
def topSubject (forest : Forest) (inputs : List ThreadInput) (rootless : List Bool) :
    List Nat → Option (List Char × Bool)
  | [top] =>
    match (forest.node top).msg with
    | some i =>
      if rootless.getD i false then
        let (base, replied) := baseSubject (inputs.getD i default).subject
        if base.isEmpty then none else some (base, replied)
      else none
    | none => none
  | _ => none

def Standing.enter (inputs : List ThreadInput) (rootless : List Bool) (census : Census)
    (standing : Standing) (row : Nat × List Nat) : Standing :=
  let (top, tops) := row
  match topSubject census.forest inputs rootless tops with
  | some (base, false) =>
    { standing with
      anchors := standing.anchors.set base ((standing.anchors.get base).getD [] ++ [top]) }
  | some (base, true) =>
    if census.count.get top = some 1 then
      { standing with
        orphans := standing.orphans.set base ((standing.orphans.get base).getD [] ++ [top]) }
    else standing
  | none => standing

def Standing.of (inputs : List ThreadInput) (rootless : List Bool) (census : Census) : Standing :=
  census.roots.rows.foldl (Standing.enter inputs rootless census) ⟨Table.empty, Table.empty⟩

/-- Every orphan with the anchor of its base subject, where there is exactly one. -/
def Standing.joins (standing : Standing) : List (Nat × Nat) :=
  standing.orphans.rows.flatMap fun (base, classes) =>
    match standing.anchors.get base with
    | some [anchor] => classes.map fun c => (anchor, c)
    | _ => []

def sortJoins (joins : List (Nat × Nat)) : List (Nat × Nat) :=
  joins.insertionSort fun a b => a.1 < b.1 ∨ (a.1 = b.1 ∧ a.2 ≤ b.2)

def subjectMerge (forest : Forest) (inputs : List ThreadInput) (rootless : List Bool) : Forest :=
  let census := Census.of forest
  let joins := (Standing.of inputs rootless census).joins
  (sortJoins joins).foldl (fun forest join => forest.merge join.1 join.2) census.forest

/-- The ids the classes own already. -/
structure Owned where
  forest : Forest
  known : Table Nat ThreadId

def Owned.ask (existing : List Char → Option ThreadId) (owned : Owned) (n : Nat) : Owned :=
  let id := (owned.forest.node n).id
  if id.isEmpty then owned
  else
    match existing id with
    | none => owned
    | some tid =>
      let (forest, «class») := owned.forest.rootOf n
      let held :=
        match owned.known.get «class» with
        | some held => held.min tid
        | none => tid
      ⟨forest, owned.known.set «class» held⟩

def Owned.of (existing : List Char → Option ThreadId) (forest : Forest) : Owned :=
  (List.range forest.size).foldl (Owned.ask existing) ⟨forest, Table.empty⟩

/-- The ids given out, the ones made on the way among them. -/
structure Given where
  forest : Forest
  made : Table Nat ThreadId
  next : Nat
  out : List ThreadId

def Given.give (known : Table Nat ThreadId) (fresh : Nat → ThreadId) (given : Given) (place : Nat) :
    Given :=
  let (forest, «class») := given.forest.rootOf place
  match known.get «class» with
  | some tid => { given with forest := forest, out := given.out ++ [tid] }
  | none =>
    match given.made.get «class» with
    | some tid => { given with forest := forest, out := given.out ++ [tid] }
    | none =>
      let tid := fresh given.next
      ⟨forest, given.made.set «class» tid, given.next + 1, given.out ++ [tid]⟩

/-- One id for each input: the lowest its class owns, else one made for the class. -/
def assign (forest : Forest) (home : List Nat) (existing : List Char → Option ThreadId)
    (fresh : Nat → ThreadId) : List ThreadId :=
  let owned := Owned.of existing forest
  (home.foldl (Given.give owned.known fresh) ⟨owned.forest, Table.empty, 0, []⟩).out

/-- Messages grouped into conversations, one id for each input; `fresh k` is the id made the
`k`-th time one is needed. -/
def threadWith (inputs : List ThreadInput) (existing : List Char → Option ThreadId)
    (fresh : Nat → ThreadId) : List ThreadId :=
  let seating := Seating.readAll inputs
  let forest := seating.forest.prune
  let forest := subjectMerge forest inputs seating.rootless
  assign forest seating.home existing fresh

end Mailo.Domain.Threading
