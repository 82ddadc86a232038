import AddressFormulas.Data.Table
import AddressFormulas.Loop.Tree
import AddressFormulas.Routine.Graph

/-!
Cyclic paths: one way around a loop. A path starts at a block, goes backward from block to block
along incoming edges, over a back edge of the loop once, and comes back to a block it has visited.
It is found by a depth-first search that tries incoming edges by falling rank of their sources.
-/

namespace AddressFormulas

/-- A back edge that enters or leaves a block of loop `marker`. -/
def Graph.isLoopBackEdge (g : Graph) (marker e : Nat) : Bool :=
  match g.edge? e with
  | none => false
  | some edge =>
    edge.isBack &&
      ((g.block? edge.sink).any (·.marker = marker) ||
        (g.block? edge.source).any (·.marker = marker))

structure CyclicPath where
  marker : Nat
  /-- The blocks in backward order, each with the edge by which the path enters it. -/
  steps : List (Nat × Nat)
  /-- The places of the blocks in an iteration, counted from the head of the loop. -/
  ranks : List (Nat × Nat)
  deriving DecidableEq, Repr

namespace CyclicPath

def blocks (p : CyclicPath) : List Nat := p.steps.map Prod.fst

def contains (p : CyclicPath) (b : Nat) : Bool := p.blocks.contains b

def takesEdge (p : CyclicPath) (g : Graph) (e : Nat) : Bool :=
  (g.edge? e).any fun edge => p.steps.lookup edge.sink = some e

def rank (p : CyclicPath) (b : Nat) : Nat := (p.ranks.lookup b).getD 0

def spans (p : CyclicPath) (g : Graph) : List BlockSpan :=
  p.blocks.filterMap fun b => (g.block? b).map Block.span

inductive Visit where
  | onPath
  | deadBefore
  | deadAfter
  deriving DecidableEq, Repr

/-- The state of a search. While an edge is tried there are as many edges as blocks, each edge
entering the block in its place. -/
structure Search where
  visits : Table Nat Visit := {}
  /-- Blocks after the back edge must have a larger rank. -/
  startRank : Int
  blocks : List Nat := []
  edges : List Nat := []

def backEdgeBefore (g : Graph) (marker b : Nat) : List (Nat × Nat) → Bool
  | [] => false
  | (block, edge) :: rest =>
    g.isLoopBackEdge marker edge || (block ≠ b && backEdgeBefore g marker b rest)

def closesCycle (g : Graph) (start marker : Nat) (s : Search) (b backEdges : Nat) : Bool :=
  (b = start && backEdges = 1) ||
    (backEdges ≠ 0 && backEdgeBefore g marker b (s.blocks.zip s.edges))

def decided? (g : Graph) (start marker : Nat) (s : Search) (b backEdges : Nat) : Option Bool :=
  match s.visits.get? b with
  | some .onPath => some (closesCycle g start marker s b backEdges)
  | some .deadBefore => if backEdges = 0 then some false else none
  | some .deadAfter => if backEdges = 0 then none else some false
  | none => none

def Search.enter (s : Search) (marker b backEdges : Nat) (block : Block) : Search :=
  { s with
    visits := s.visits.insert b .onPath
    blocks := b :: s.blocks
    startRank :=
      if marker < block.marker ∧ backEdges = 0 ∧ block.rank < s.startRank then block.rank
      else s.startRank }

def Search.leave (s : Search) (b backEdges : Nat) (startRank : Int) : Search :=
  { s with
    visits := s.visits.insert b (if backEdges = 0 then .deadBefore else .deadAfter)
    blocks := s.blocks.tail
    startRank }

/-- Whether the search may go backward from `block` along an edge. It stays in the loop, and takes a
back edge only if the loop is the innermost one around both ends and the start. -/
def mayFollow (g : Graph) (start marker : Nat) (block : Block) (edge : Edge) (source : Block) :
    Bool :=
  marker ≤ source.marker &&
    (!edge.isBack ||
      LoopTree.lowestCommon g.loopTree (((g.block? start).map Block.marker).getD 0) source.marker
        block.marker = marker)

def tryEdges (g : Graph) (start marker backEdges : Nat) (block : Block)
    (next : Nat → Nat → StateM Search Bool) : List Nat → StateM Search Bool
  | [] => pure false
  | e :: rest => do
    let tryRest := tryEdges g start marker backEdges block next rest
    match g.edge? e with
    | none => tryRest
    | some edge =>
      match g.block? edge.source with
      | none => tryRest
      | some source =>
        if mayFollow g start marker block edge source then
          modify fun s => { s with edges := e :: s.edges }
          let found ← next edge.source
            (if g.isLoopBackEdge marker e then backEdges + 1 else backEdges)
          if found then return true
          modify fun s => { s with edges := s.edges.tail }
          tryRest
        else tryRest

/-- Search from block `b`, `backEdges` back edges of the loop having been taken. Every level puts
another block on the path, so the number of blocks bounds the depth. -/
def search (g : Graph) (start marker : Nat) : Nat → Nat → Nat → StateM Search Bool
  | 0, _, _ => pure false
  | depth + 1, b, backEdges => do
    let s ← get
    match decided? g start marker s b backEdges, g.block? b with
    | some answer, _ => return answer
    | none, none => return false
    | none, some block =>
      if 0 < backEdges ∧ block.rank ≤ s.startRank then return false
      set (s.enter marker b backEdges block)
      let found ← tryEdges g start marker backEdges block (search g start marker depth)
        (g.incomingByRank block)
      if found then return true
      modify fun t => t.leave b backEdges s.startRank
      return false

/-- Number the blocks from the head of the loop on: the block behind the back edge is the last. -/
def iterationRanks (blocks : List Nat) (head : Nat) : List (Nat × Nat) :=
  (blocks.drop head ++ blocks.take head).zip ((List.range blocks.length).reverse.map (· + 1))

def build? (g : Graph) (start marker : Nat) : Option CyclicPath := do
  let first ← g.block? start
  let (found, s) := (search g start marker (g.blocks.length + 1) start 0).run
    { startRank := first.rank }
  if !found then none
  let blocks := s.blocks.reverse
  let edges := s.edges.reverse
  let back ← edges.findIdx? (g.isLoopBackEdge marker)
  return { marker, steps := blocks.zip edges, ranks := iterationRanks blocks (back + 1) }

end CyclicPath

end AddressFormulas
