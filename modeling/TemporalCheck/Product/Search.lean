import TemporalCheck.Product.Verdict
import TemporalCheck.Property.Automaton
import TemporalCheck.StateSpace

/-!
The product of a program and the automaton of the words that violate a property, expanded while
it is searched. Acceptance with several sets is followed by a phase counter in the nodes: the
counter moves on when the set it points at is met, and a node accepts when it meets set `0` in
phase `0`.
-/

namespace TemporalCheck

/-- A node of the product. The root stands before the first program state. -/
structure ProductNode where
  program : Nat
  property : Nat
  phase : Nat
  root : Bool
deriving DecidableEq

instance : HasDigest ProductNode where
  digest n :=
    { key := littleEndian n.program.toUInt32 ++ littleEndian n.property.toUInt32 ++
        littleEndian n.phase.toUInt32 ++ [if n.root then 1 else 0] }

/-- What is known of a node: whether the outer and the inner search have entered it, whether it
is on the path of the outer search, its successors once it is expanded, and whether they come
from an ample set. -/
structure NodeFacts where
  outer : Bool := false
  inner : Bool := false
  onPath : Bool := false
  reduced : Option Bool := none
  successors : Option (List Nat) := none

instance : Inhabited NodeFacts := ⟨{}⟩

/-- A search and all it has expanded. The path of the outer search has its deepest node
first. -/
structure Search (W S : Type) where
  space : StateSpace W S
  property : PropertyAutomaton
  reduction : Bool := false
  printTree : Bool := false
  nodes : StateTable ProductNode NodeFacts := .empty
  path : List Nat := []
  visitedNodes : Nat := 0
  transitions : Nat := 0
  innerSearches : Nat := 0
  reducedNodes : Nat := 0
  maxDepth : Nat := 0

namespace Search

variable {W S α : Type}

def inSpace (t : Task (StateSpace W S) α) : Task (Search W S) α :=
  fun ⟨⟨space, q, r, pt, n, path, v, tr, i, rd, m⟩, log⟩ =>
    match t ⟨space, log⟩ with
    | .ok a ⟨space, log⟩ => .ok a ⟨⟨space, q, r, pt, n, path, v, tr, i, rd, m⟩, log⟩
    | .error e ⟨space, log⟩ => .error e ⟨⟨space, q, r, pt, n, path, v, tr, i, rd, m⟩, log⟩

def inProperty (t : Task PropertyAutomaton α) : Task (Search W S) α :=
  fun ⟨⟨space, q, r, pt, n, path, v, tr, i, rd, m⟩, log⟩ =>
    match t ⟨q, log⟩ with
    | .ok a ⟨q, log⟩ => .ok a ⟨⟨space, q, r, pt, n, path, v, tr, i, rd, m⟩, log⟩
    | .error e ⟨q, log⟩ => .error e ⟨⟨space, q, r, pt, n, path, v, tr, i, rd, m⟩, log⟩

def node (id : Nat) : Task (Search W S) ProductNode := do
  Task.require ((← Task.read).nodes.get? id)

def facts (id : Nat) : Task (Search W S) NodeFacts := do
  Task.require ((← Task.read).nodes.info? id)

def note (id : Nat) (f : NodeFacts → NodeFacts) : Task (Search W S) Unit :=
  Task.change fun s => { s with nodes := s.nodes.modifyInfo id f }

def store (nodes : List ProductNode) : Task (Search W S) (List Nat) := do
  let (ids, table) := (← Task.read).nodes.insertAll nodes
  Task.change fun s => { s with nodes := table }
  return ids

def nextPhase (n : ProductNode) : Task (Search W S) Nat := do
  let a := (← Task.read).property
  if n.root || a.acceptanceCount = 0 then return 0
  else if ← Task.require (a.accepts? n.property n.phase) then
    return (n.phase + 1) % a.acceptanceCount
  else return n.phase

def isAccepting (id : Nat) : Task (Search W S) Bool := do
  let n ← node id
  let a := (← Task.read).property
  if n.root then return false
  else if a.acceptanceCount = 0 then return true
  else if n.phase = 0 then Task.require (a.accepts? n.property 0)
  else return false

/-- Those of the program states in which the literals of the property state hold. -/
def matching (p : Program W S) (property phase : Nat) (literals : List Formula) :
    List Nat → Task (Search W S) (List ProductNode)
  | [] => return []
  | s :: rest => do
    let holds ← inSpace (StateSpace.entailsAll p s literals)
    let others ← matching p property phase literals rest
    return if holds then ⟨s, property, phase, false⟩ :: others else others

def pairUp (p : Program W S) (phase : Nat) (programIds : List Nat) :
    List Nat → Task (Search W S) (List ProductNode)
  | [] => return []
  | q :: rest => do
    let state ← inProperty (PropertyAutomaton.state q)
    let found ← matching p q phase state.literals programIds
    let others ← pairUp p phase programIds rest
    return found ++ others

/-- The product nodes that a node leads to when the program moves to one of `programIds`. -/
def productSuccessors (p : Program W S) (n : ProductNode) (programIds : List Nat) :
    Task (Search W S) (List ProductNode) := do
  let phase ← nextPhase n
  let propertyIds ← inProperty (PropertyAutomaton.successors n.property)
  pairUp p phase programIds propertyIds

section

variable [DecidableEq S] [HasDigest S]

def closesCycle (s : Search W S) (n : ProductNode) : Bool :=
  match s.nodes.lookup n with
  | some id => ((s.nodes.info? id).map (·.onPath)).getD false
  | none => false

/-- The successors by an ample set, if the program offers one that gives successors and none of
them lies on the path of the outer search. -/
def reducedSuccessors (p : Program W S) (n : ProductNode) :
    Task (Search W S) (Option (List ProductNode)) := do
  if (← Task.read).reduction && !n.root then
    match ← inSpace (StateSpace.ample p n.program) with
    | none => return none
    | some ample =>
      let next ← productSuccessors p n ample
      let s ← Task.read
      return if next.isEmpty || next.any s.closesCycle then none else some next
  else return none

def fullSuccessors (p : Program W S) (n : ProductNode) : Task (Search W S) (List ProductNode) := do
  let programIds ← if n.root then pure [n.program] else inSpace (StateSpace.successors p n.program)
  productSuccessors p n programIds

def expand (p : Program W S) (id : Nat) : Task (Search W S) (List Nat) := do
  match (← facts id).successors with
  | some ids => return ids
  | none =>
    let n ← node id
    let reduced ← reducedSuccessors p n
    let next ← match reduced with
      | some next => do
        Task.change fun s => { s with reducedNodes := s.reducedNodes + 1 }
        pure next
      | none => fullSuccessors p n
    let ids ← store next
    note id fun f => { f with reduced := some reduced.isSome, successors := some ids }
    return ids

def productState (id : Nat) : Task (Search W S) (ProductState S) := do
  let n ← node id
  let program ← inSpace (StateSpace.state n.program)
  let property ← inProperty (PropertyAutomaton.state n.property)
  return ⟨program, property⟩

def productStates : List Nat → Task (Search W S) (List (ProductState S))
  | [] => return []
  | id :: ids => do
    let s ← productState id
    let rest ← productStates ids
    return s :: rest

def pathStates : Task (Search W S) (List (ProductState S)) := do
  productStates (← Task.read).path.reverse

def printNode (p : Program W S) (id : Nat) : Task (Search W S) Unit := do
  let s ← productState id
  let n ← node id
  let indent := String.ofList (List.replicate (2 * ((← Task.read).path.length - 1)) ' ')
  Task.emit .debug
    (indent ++ p.describe s.program ++ " " ++ s.property.text ++ " [" ++ toString n.phase ++ "]")

end

/-- A node on the way of a depth first search and those of its successors still to try. -/
structure Frame where
  node : Nat
  rest : List Nat

/-- Where a search stands. The outer search has its deepest frame first. The inner search starts
at a `seed`, the deepest node of the outer path, above the frames `below`. -/
inductive Stage where
  | outer (frames : List Frame)
  | inner (below : List Frame) (seed : Nat) (frames : List Frame)

inductive Progress (S : Type) where
  | going (stage : Stage)
  | decided (verdict : Verdict S)

section

variable [DecidableEq S] [HasDigest S]

def enter (p : Program W S) (id : Nat) : Task (Search W S) Frame := do
  note id fun f => { f with outer := true, onPath := true }
  Task.change fun s =>
    { s with
      path := id :: s.path
      visitedNodes := s.visitedNodes + 1
      maxDepth := max s.maxDepth (s.path.length + 1) }
  if (← Task.read).printTree then printNode p id
  let ids ← expand p id
  return ⟨id, ids⟩

def leave (id : Nat) : Task (Search W S) Unit := do
  note id fun f => { f with onPath := false }
  Task.change fun s => { s with path := s.path.tail }

def clear : Task (Search W S) Unit :=
  Task.change fun s =>
    { s with
      nodes := .empty, path := [], visitedNodes := 0, transitions := 0, innerSearches := 0,
      reducedNodes := 0, maxDepth := 0 }

def start (p : Program W S) : Task (Search W S) Stage := do
  clear
  let program ← inSpace (StateSpace.initial p)
  let property := (← Task.read).property.initial
  let ids ← store [⟨program, property, 0, true⟩]
  match ids with
  | [] => return .outer []
  | root :: _ =>
    let frame ← enter p root
    return .outer [frame]

def countTransition : Task (Search W S) Unit :=
  Task.change fun s => { s with transitions := s.transitions + 1 }

def startInner (p : Program W S) (seed : Nat) (below : List Frame) : Task (Search W S) Stage := do
  Task.change fun s => { s with innerSearches := s.innerSearches + 1 }
  note seed fun f => { f with inner := true }
  let ids ← expand p seed
  return .inner below seed [⟨seed, ids⟩]

def resume : List Frame → Progress S
  | [] => .decided .pass
  | frames => .going (.outer frames)

def outerStep (p : Program W S) (top : Frame) (below : List Frame) :
    Task (Search W S) (Progress S) := do
  match top.rest with
  | id :: rest =>
    countTransition
    let top : Frame := ⟨top.node, rest⟩
    if (← facts id).outer then return .going (.outer (top :: below))
    else
      let frame ← enter p id
      return .going (.outer (frame :: top :: below))
  | [] =>
    if ← isAccepting top.node then
      return .going (← startInner p top.node below)
    else
      leave top.node
      return resume below

def innerStep (p : Program W S) (below : List Frame) (seed : Nat) (top : Frame)
    (frames : List Frame) : Task (Search W S) (Progress S) := do
  match top.rest with
  | id :: rest =>
    countTransition
    let top : Frame := ⟨top.node, rest⟩
    let known ← facts id
    if known.onPath then
      let path ← pathStates
      let cycle ← productStates (((top :: frames).map Frame.node).reverse ++ [id])
      return .decided (.violation ⟨path, cycle⟩)
    else if known.inner then return .going (.inner below seed (top :: frames))
    else
      note id fun f => { f with inner := true }
      let ids ← expand p id
      return .going (.inner below seed (⟨id, ids⟩ :: top :: frames))
  | [] =>
    if frames.isEmpty then
      leave seed
      return resume below
    else return .going (.inner below seed frames)

def step (p : Program W S) : Stage → Task (Search W S) (Progress S)
  | .outer [] => return .decided .pass
  | .outer (top :: below) => outerStep p top below
  | .inner below seed [] => do
    leave seed
    return resume below
  | .inner below seed (top :: frames) => innerStep p below seed top frames

end

/-- Was a node expanded with an ample set? `none` if it has not been expanded. -/
def wasReduced (s : Search W S) (n : ProductNode) : Option Bool :=
  (s.nodes.lookup n).bind fun id => (s.nodes.info? id).bind (·.reduced)

def stats (s : Search W S) : SearchStats :=
  { productNodes := s.nodes.size
    visitedNodes := s.visitedNodes
    programStates := s.space.expanded
    propertyStates := s.property.expanded
    evaluatedStates := s.space.evaluated
    transitions := s.transitions
    innerSearches := s.innerSearches
    reducedNodes := s.reducedNodes
    collisions := s.nodes.collisions + s.space.table.collisions + s.property.table.collisions
    maxDepth := s.maxDepth }

end Search

end TemporalCheck
