import AddressFormulas.Base.Slicer
import AddressFormulas.Stride.Slicer

namespace AddressFormulas

structure OperandSite where
  block : Nat
  index : Nat
  pc : Nat
  opidx : Int
  marker : Nat
  deriving DecidableEq, Repr

def OperandSite.id (s : OperandSite) : OperandId := ⟨s.pc, s.opidx⟩

structure RoutineFormulas where
  name : String
  sites : List OperandSite
  formulas : OperandTable
  deriving DecidableEq, Repr

namespace RoutineFormulas

def base? (r : RoutineFormulas) (operand : OperandId) : Option Formula := r.formulas.base? operand

def strides (r : RoutineFormulas) (operand : OperandId) : List Formula := r.formulas.strides operand

def strideTexts (strides : List Formula) : String :=
  String.join <| strides.zipIdx.map fun (f, level) =>
    " stride[" ++ Numeral.natural level ++ "]=" ++ f.text

def siteText (r : RoutineFormulas) (s : OperandSite) : String :=
  let base :=
    match r.base? s.id with
    | some f => f.text
    | none => "?"
  Numeral.hex s.pc ++ "@" ++ Numeral.decimal s.opidx ++ " B" ++ Numeral.natural s.block ++
    " base=" ++ base ++ strideTexts (r.strides s.id) ++ "\n"

def text (r : RoutineFormulas) : String :=
  "routine " ++ r.name ++ "\n" ++ String.join (r.sites.map r.siteText)

end RoutineFormulas

namespace Graph

def opSites (b : Block) (index : Nat) (u : MicroOp) : List OperandSite :=
  if u.kind = .lea then []
  else u.memoryOperands.map fun m => ⟨b.id, index, u.pc, m.opidx, b.marker⟩

def firstOccurrences : List OperandId → List OperandSite → List OperandSite
  | _, [] => []
  | seen, s :: rest =>
    if seen.contains s.id then firstOccurrences seen rest
    else s :: firstOccurrences (s.id :: seen) rest

/-- The memory operands of a routine, by rank of their blocks. Address computations access no
memory. -/
def operandSites (g : Graph) : List OperandSite :=
  let blocks := sortBy (fun a b : Block => decide (a.rank ≤ b.rank)) g.blocks
  firstOccurrences [] <| blocks.flatMap fun b =>
    b.ops.zipIdx.flatMap fun (u, i) => opSites b i u

end Graph

namespace Analysis

variable (settings : Settings) (g : Graph)

def computeBases : List OperandSite → WalkM BaseState Unit
  | [] => pure ()
  | s :: rest => do
    let base ← Base.address settings g s.block s.index s.opidx
    WalkM.modifyClient fun st => { st with bases := st.bases.setBase s.id base }
    computeBases rest

structure LevelStride where
  operand : OperandId
  level : Nat
  stride : Formula

structure StrideWork where
  loops : Table Nat (Walk StrideState) := {}
  session : StrideSession := {}
  strides : List LevelStride := []
  journal : Journal := []

abbrev WorkM := EStateM Stop StrideWork

def inLoop {α : Type} (marker : Nat) (m : Stride.M α) : WorkM (Except Stop α) := do
  let work ← get
  let before := work.loops.getD marker { client := {} }
  let outcome := m.run
    { before with client.session := work.session, journal := work.journal }
  let (answer, after) : Except Stop α × Walk StrideState :=
    match outcome with
    | .ok a w => (.ok a, w)
    | .error e w => (.error e, w)
  set { work with
    loops := work.loops.insert marker { after with journal := [] }
    session := after.client.session
    journal := after.journal }
  return answer

/-- The strides of an operand in the given loops, innermost first. A loop without a way around it
ends the list. -/
def computeStrides (bases : OperandTable) (s : OperandSite) : Nat → List Nat → WorkM Unit
  | _, [] => pure ()
  | level, marker :: rest => do
    let task : Stride.Task := { settings, graph := g, bases, marker }
    match ← inLoop marker (Stride.operandStride task s.block s.index s.opidx) with
    | .ok stride =>
      modify fun work => { work with strides := ⟨s.id, level, stride⟩ :: work.strides }
      computeStrides bases s (level + 1) rest
    | .error (.failed (.noCyclicPath b m)) =>
      modify fun work =>
        { work with journal := .skippedLevels s.id (.noCyclicPath b m) :: work.journal }
    | .error stop => throw stop

def computeAllStrides (bases : OperandTable) : List OperandSite → WorkM Unit
  | [] => pure ()
  | s :: rest => do
    if 0 < s.marker then
      if (bases.base? s.id).isNone then throw (.failed (.missingBaseFormula s.id))
      computeStrides settings g bases s 0 (g.enclosingLoops s.marker)
    computeAllStrides bases rest

def recordStrides (bases : OperandTable) (strides : List LevelStride) :
    Except Failure OperandTable :=
  strides.foldlM (fun t s => t.recordStride s.operand s.level s.stride) bases

end Analysis

def Graph.analyzeWithJournal (settings : Settings) (g : Graph) (journal : Journal) :
    Except Stop RoutineFormulas × Journal :=
  let sites := g.operandSites
  match (Analysis.computeBases settings g sites).run
      { client := {}, journal := .analyzing g.name g.blocks.length :: journal } with
  | .error stop w => (.error stop, w.journal)
  | .ok _ w =>
    let bases := w.client.bases
    match (Analysis.computeAllStrides settings g bases sites).run { journal := w.journal } with
    | .error stop work => (.error stop, work.journal)
    | .ok _ work =>
      match Analysis.recordStrides bases work.strides.reverse with
      | .error f => (.error (.failed f), work.journal)
      | .ok formulas => (.ok { name := g.name, sites, formulas }, work.journal)

/-- The base address of every memory operand of a routine, and its stride in every loop around
it. -/
def Graph.analyze (settings : Settings) (g : Graph) : Except Stop RoutineFormulas :=
  (g.analyzeWithJournal settings []).1

end AddressFormulas
