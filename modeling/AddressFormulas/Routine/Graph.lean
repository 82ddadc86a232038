import AddressFormulas.Data.Sorting
import AddressFormulas.Failure
import AddressFormulas.MicroOp.Basic
import AddressFormulas.Routine.Span

namespace AddressFormulas

inductive BlockKind where
  | code
  | surrogate (target : Nat)
  deriving DecidableEq, Repr

structure Block where
  id : Nat
  start : Nat
  /-- One past the last address. -/
  stop : Nat
  rank : Int
  /-- The innermost loop around the block; zero outside of loops. -/
  marker : Nat
  isEntry : Bool := false
  kind : BlockKind := .code
  ops : List MicroOp := []
  incoming : List Nat := []
  outgoing : List Nat := []
  deriving DecidableEq, Repr

def Block.span (b : Block) : BlockSpan := ⟨b.id, b.start, b.stop⟩

structure Edge where
  id : Nat
  source : Nat
  sink : Nat
  isBack : Bool
  deriving DecidableEq, Repr

structure Graph where
  name : String := ""
  blocks : List Block := []
  edges : List Edge := []
  /-- The loop around each loop; the entry of zero is the routine itself. -/
  loopTree : List Nat := [0]
  deriving DecidableEq, Repr

namespace Graph

def block? (g : Graph) (b : Nat) : Option Block := g.blocks[b]?

def edge? (g : Graph) (e : Nat) : Option Edge := g.edges[e]?

def addNode (g : Graph) (start stop : Nat) (rank : Int) (marker : Nat) (kind : BlockKind)
    (ops : List MicroOp) : Graph :=
  { g with
    blocks := g.blocks ++
      [{ id := g.blocks.length, start, stop, rank, marker, kind, ops }] }

def addressRange (ops : List MicroOp) : Nat × Nat :=
  match ops with
  | [] => (0, 0)
  | u :: us => (u.pc, us.foldl (fun m v => max m v.nextPc) u.nextPc)

def addBlock (g : Graph) (rank : Int) (marker : Nat) (ops : List MicroOp) : Graph :=
  g.addNode (addressRange ops).1 (addressRange ops).2 rank marker .code ops

def addSurrogate (g : Graph) (rank : Int) (marker place target : Nat) : Graph :=
  g.addNode place place rank marker (.surrogate target) []

def modifyBlock (g : Graph) (b : Nat) (f : Block → Block) : Graph :=
  { g with blocks := g.blocks.modify b f }

def addEdge (g : Graph) (source sink : Nat) (isBack : Bool) : Graph :=
  let e := g.edges.length
  let h := { g with edges := g.edges ++ [Edge.mk e source sink isBack] }
  (h.modifyBlock source fun b => { b with outgoing := b.outgoing ++ [e] }).modifyBlock sink
    fun b => { b with incoming := b.incoming ++ [e] }

def setEntry (g : Graph) (b : Nat) : Graph := g.modifyBlock b ({ · with isEntry := true })

def setRank (g : Graph) (b : Nat) (rank : Int) : Graph := g.modifyBlock b ({ · with rank })

def setMarker (g : Graph) (b marker : Nat) : Graph := g.modifyBlock b ({ · with marker })

def checkLoopParents : Nat → List Nat → EStateM Failure Graph Unit
  | _, [] => pure ()
  | marker, parent :: rest =>
    if marker ≤ parent then throw (.badLoopParent marker parent)
    else checkLoopParents (marker + 1) rest

/-- Set the parents of the loops `1, 2, …`. A loop comes after every loop around it. -/
def assignLoopParents (parents : List Nat) : EStateM Failure Graph Unit := do
  checkLoopParents 1 parents
  modify ({ · with loopTree := 0 :: parents })

def setLoopParents (g : Graph) (parents : List Nat) : Except Failure Graph :=
  match (assignLoopParents parents).run g with
  | .ok _ h => .ok h
  | .error f _ => .error f

def loopParent? (g : Graph) (marker : Nat) : Option Nat :=
  if marker = 0 then none else g.loopTree[marker]?

def enclosing (g : Graph) : Nat → Nat → List Nat
  | 0, _ => []
  | _ + 1, 0 => []
  | n + 1, m + 1 => (m + 1) :: g.enclosing n ((g.loopParent? (m + 1)).getD 0)

/-- Loop `marker` and the loops around it, innermost first. Markers fall along the way, so the
length of the tree bounds their number. -/
def enclosingLoops (g : Graph) (marker : Nat) : List Nat :=
  g.enclosing (g.loopTree.length + 1) marker

def sourceRank (g : Graph) (e : Nat) : Int :=
  (((g.edge? e).bind fun edge => g.block? edge.source).map Block.rank).getD 0

/-- The incoming edges of a block by falling rank of their sources; ties keep their order. -/
def incomingByRank (g : Graph) (b : Block) : List Nat :=
  sortBy (fun e f => g.sourceRank f ≤ g.sourceRank e) b.incoming

end Graph

def lastBefore? {α β : Type} (xs : List α) (p : α → Option β) : Nat → Option (Nat × α × β)
  | 0 => none
  | i + 1 =>
    match xs[i]?.bind fun x => (p x).map fun y => (x, y) with
    | some (x, y) => some (i, x, y)
    | none => lastBefore? xs p i

def Block.definition? (b : Block) (stop : Nat) (reg : Register) :
    Option (Nat × MicroOp × Register) :=
  lastBefore? b.ops (·.defines? reg) (min stop b.ops.length)

end AddressFormulas
