import AddressFormulas.Diagnostic.Event
import AddressFormulas.Routine.Graph
import AddressFormulas.Routine.Notation.MicroOp

/-!
The reader of routines. A text is read line by line: `CFG` names the routine, `LOOPS` gives the
parents of its loops, `BLOCK` begins a block, `EDGE` joins two blocks, and any other line is a
micro-op of the block begun last. Blank lines and lines that start with `#` say nothing. Edges may
name blocks that are declared later, so they are added at the end.
-/

namespace AddressFormulas.Notation

structure BlockDraft where
  id : Nat
  line : Nat
  rank : Int
  marker : Nat
  isEntry : Bool
  surrogate : Option (Nat × Nat)
  ops : List MicroOp := []

structure EdgeLine where
  line : Nat
  source : Nat
  sink : Nat
  isBack : Bool

structure Draft where
  graph : Graph := {}
  ids : Table Nat Nat := {}
  edges : List EdgeLine := []
  current : Option BlockDraft := none
  journal : Journal := []

/-- Readers keep what they have read when they fail. -/
abbrev Reader := EStateM NotationError Draft

def ofExcept {α : Type} : Except NotationError α → Reader α
  | .ok a => pure a
  | .error e => throw e

def attribute? (words : List String) (key : String) : Option String :=
  words.findSome? (valueOf? key)

def readAttribute {α : Type} (words : List String) (key : String) (default : α)
    (read : String → Except NotationError α) : Except NotationError α :=
  match attribute? words key with
  | some text => read text
  | none => .ok default

def readSurrogate (line : Nat) (words : List String) :
    Except NotationError (Option (Nat × Nat)) := do
  match attribute? words "surrogate" with
  | none => return none
  | some text =>
    let target ← readNatural line text
    let place ← readAttribute words "at" target (readNatural line)
    return some (place, target)

def readBlock (line : Nat) (words : List String) : Except NotationError BlockDraft := do
  match words with
  | _ :: idText :: _ =>
    let id ← readNatural line idText
    let rank ← readAttribute words "rank" 0 (readRank line)
    let marker ← readAttribute words "marker" 0 (readCount line)
    let surrogate ← readSurrogate line words
    return { id, line, rank, marker, isEntry := words.contains "entry", surrogate }
  | _ => throw (malformed line words)

/-- Add the block that is being read to the graph. The last block declared with a number is the one
that the number names. -/
def Draft.finishBlock (d : Draft) : Draft :=
  match d.current with
  | none => d
  | some b =>
    let n := d.graph.blocks.length
    let g :=
      match b.surrogate with
      | some (place, target) => d.graph.addSurrogate b.rank b.marker place target
      | none => d.graph.addBlock b.rank b.marker b.ops
    { d with
      graph := if b.isEntry then g.setEntry n else g
      ids := d.ids.insert b.id n
      current := none
      journal :=
        if d.ids.contains b.id then .repeatedBlock b.id b.line :: d.journal else d.journal }

/-- Micro-ops in a row with one address are numbered as parts of one instruction. -/
def BlockDraft.add (b : BlockDraft) (u : MicroOp) : BlockDraft :=
  let idx :=
    match b.ops.getLast? with
    | some last => if last.pc = u.pc then last.idx + 1 else u.idx
    | none => u.idx
  { b with ops := b.ops ++ [{ u with idx }] }

def readLoops (line : Nat) (words : List String) (g : Graph) : Except NotationError Graph := do
  let parents ← words.mapM (readCount line)
  match g.setLoopParents parents with
  | .ok g => return g
  | .error f => throw (.loopTree line f)

def readEdge (line : Nat) (trimmed : List Char) (words : List String) :
    Except NotationError EdgeLine := do
  match words with
  | sourceText :: sinkText :: rest =>
    let source ← readNatural line sourceText
    let sink ← readNatural line sinkText
    return ⟨line, source, sink, rest.contains "back"⟩
  | _ => throw (.malformed line (String.ofList trimmed))

def readWords (line : Nat) (trimmed : List Char) (words : List String) : Reader Unit := do
  let d ← get
  match words with
  | "CFG" :: rest => set { d with graph.name := " ".intercalate rest }
  | "LOOPS" :: rest =>
    let g ← ofExcept (readLoops line rest d.graph)
    set { d with graph := g }
  | "BLOCK" :: _ =>
    set d.finishBlock
    let b ← ofExcept (readBlock line words)
    modify fun d => { d with current := some b }
  | "EDGE" :: rest =>
    let e ← ofExcept (readEdge line trimmed rest)
    set { d with edges := d.edges ++ [e] }
  | _ =>
    match d.current with
    | none => throw (.orphanMicroOp line)
    | some b =>
      let u ← ofExcept (readMicroOp line words)
      set { d with current := some (b.add u) }

def readLine (line : Nat) (raw : List Char) : Reader Unit :=
  match Text.trim raw with
  | [] => pure ()
  | '#' :: _ => pure ()
  | trimmed => readWords line trimmed (Text.words trimmed)

def readLines : Nat → List (List Char) → Reader Unit
  | _, [] => pure ()
  | n, raw :: rest => do
    readLine n raw
    readLines (n + 1) rest

def findBlock (ids : Table Nat Nat) (line id : Nat) : Except NotationError Nat :=
  match ids.get? id with
  | some b => .ok b
  | none => .error (.unknownBlock line id)

def addEdgeLine (ids : Table Nat Nat) (g : Graph) (e : EdgeLine) : Except NotationError Graph := do
  let source ← findBlock ids e.line e.source
  let sink ← findBlock ids e.line e.sink
  return g.addEdge source sink e.isBack

def readRoutine (text : String) : Reader Graph := do
  readLines 1 (Text.lines text)
  modify Draft.finishBlock
  let d ← get
  let g ← ofExcept (d.edges.foldlM (addEdgeLine d.ids) d.graph)
  modify fun d => { d with journal := .liftedRoutine g.name g.blocks.length :: d.journal }
  return g

end AddressFormulas.Notation

namespace AddressFormulas.Graph

def readWithJournal (text : String) : Except NotationError Graph × Journal :=
  match (Notation.readRoutine text).run {} with
  | .ok g d => (.ok g, d.journal)
  | .error e d => (.error e, d.journal)

def read (text : String) : Except NotationError Graph := (readWithJournal text).1

end AddressFormulas.Graph
