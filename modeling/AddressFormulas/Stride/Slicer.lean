import AddressFormulas.Stride.State

/-!
Strides of memory operands: the change of an address over one iteration of a loop. The registers of
the address are sliced along one cyclic path. A walk that comes around the back edge to a micro-op
still being computed has found a value cycle; the cycle is seeded with zero, and its definitions add
up to the change over one iteration.
-/

namespace AddressFormulas.Stride

abbrev M := WalkM StrideState

structure Task where
  settings : Settings
  graph : Graph
  bases : OperandTable
  marker : Nat

def push (reg : Register) (v : ValueSource) : M Unit :=
  WalkM.modifyClient (·.push reg v)

def claim (reg : Register) : M (Option ValueSource) :=
  WalkM.claim StrideState.values (fun values st => { st with values }) reg

def modifyProgress (site : Site) (f : Progress → Progress) : M Unit :=
  WalkM.modifyClient (·.modifyProgress site f)

/-- Drop what belongs to one slice. Formulas of micro-ops and the path are kept. -/
def clear : M Unit := do
  modify fun w => { w with bounds.start := 0 }
  WalkM.modifyClient fun st =>
    { st with
      values := {}
      cycles := []
      backEdges := 0
      startBackEdges := 0
      session.visits := 0 }

def operandValue (u : MicroOp) (i : Nat) : M (Option StrideValue) := do
  let fromRegister (reg : Register) : M (Option StrideValue) := do
    match ← claim reg with
    | none =>
      WalkM.tell (.unclaimedOperand u.pc i reg)
      return none
    | some .outside => return some { formula := .register ⟨u.pc, -1⟩ reg }
    | some (.definition site target) =>
      match (← WalkM.client).progress.get? site with
      | some { formula := some formula, kind, .. } => return some { formula, kind, target }
      | _ => return some { formula := .register site reg, target }
  match u.sources[i]? with
  | some (.immediate v) => return some { formula := .constant v }
  | some (.register r) =>
    match u.hardwired? r.canonical with
    | some v => return some { formula := .constant v }
    | none => fromRegister r.canonical
  | some (.temporary n) => fromRegister (.temporary n u.width)
  | some (.memory _) => return none
  | none => return none

def leaPart (u : MicroOp) (key : TermKey) (t : Term) : M StrideValue := do
  let asIs := Formula.ofTerm key t.coeff t.origin
  match key with
  | .register _ reg =>
    match u.hardwired? reg with
    | some v => return { formula := (Formula.constant v).scale t.coeff }
    | none =>
      match ← claim reg with
      | none =>
        WalkM.tell (.unclaimedAddressRegister u.pc reg)
        return { formula := asIs }
      | some .outside => return { formula := asIs }
      | some (.definition site target) =>
        match (← WalkM.client).progress.get? site with
        | some { formula := some f, kind, .. } =>
          return { formula := f.scale t.coeff, kind, target }
        | _ => return { formula := asIs, target }
  | _ => return { formula := asIs }

def addPart (sum part : StrideValue) : StrideValue :=
  let target := earlier sum.target part.target
  if sum.kind = .partialSum ∨ part.kind = .partialSum then
    { formula := sum.formula + part.formula, kind := .partialSum, target }
  else if sum.kind = part.kind then
    { formula := sum.formula + part.formula, kind := sum.kind, target }
  else
    { formula := if sum.kind = .invariant then part.formula else sum.formula
      kind := .stride
      target }

def leaTerms (u : MicroOp) : List (TermKey × Term) → StrideValue → Access → M StrideValue
  | [], sum, access =>
    return { sum with formula := { sum.formula with access := sum.formula.access.merge access } }
  | (key, t) :: rest, sum, access => do
    let part ← leaPart u key t
    leaTerms u rest (addPart sum part) (access.merge part.formula.access)

def leaValue (u : MicroOp) : M StrideValue :=
  match u.sources.head? with
  | some (.memory m) => leaTerms u (u.addressFormula m).terms.entries { formula := .zero } {}
  | _ => return { formula := .zero }

variable (task : Task)

def giveUp (failure : Failure) (f : Formula) : M StrideValue := do
  WalkM.report task.settings.strict failure
  return { formula := f }

def easyValue (u : MicroOp) (reg : Register) : M StrideValue :=
  let unknown := Formula.register u.site reg
  if u.kind ≠ .move ∧ u.kind ≠ .copy then giveUp task (.nonMoveWithoutSources u.site) unknown
  else
    match u.immediates with
    | [v] => return { formula := .constant v }
    | vs => giveUp task (.unexpectedOperandCount u.site vs.length) unknown

def secondOperand (u : MicroOp) (count second : Nat) : M (Option StrideValue) := do
  if 1 < count then operandValue u second
  else
    if u.operation ≠ .mov ∧ u.operation ≠ .not then
      WalkM.report task.settings.strict (.unexpectedOperandCount u.site count)
    return some { formula := .zero }

def combinedValue (u : MicroOp) (reg : Register) (count : Nat) : M StrideValue := do
  let missing (i : Nat) : M StrideValue :=
    giveUp task (.missingOperand u.site i) (.register u.site reg)
  let second := if count = 3 then 2 else 1
  match ← operandValue u 0 with
  | none => missing 0
  | some o₁ =>
    if count = 3 then
      match ← operandValue u 1 with
      | none => missing 1
      | some middle =>
        match ← secondOperand task u count second with
        | none => missing second
        | some o₂ => return combine u reg count second o₁ (some middle) o₂
    else
      match ← secondOperand task u count second with
      | none => missing second
      | some o₂ => return combine u reg count second o₁ none o₂

def normalValue (u : MicroOp) (reg : Register) : M StrideValue := do
  let unknown := Formula.register u.site reg
  let count := u.valueSources
  if count = 0 ∨ 3 < count ∨ (count = 3 ∧ !u.allowsThreeSources) then
    giveUp task (.unexpectedOperandCount u.site count) unknown
  else if u.kind = .lea then leaValue u
  else if u.operation = .invalid then return { formula := unknown }
  else combinedValue task u reg count

def spilledValue? (follow : Slicer.FollowFor StrideState) (u : Placed) (base : Formula) :
    M (Option StrideValue) := do
  modify fun w => { w with bounds.start := u.op.pc }
  match ← follow ⟨u.block, u.index⟩ base with
  | none => return none
  | some saved =>
    match ← claim saved with
    | some (.definition site _) =>
      match (← WalkM.client).progress.get? site with
      | some { formula := some formula, kind, target, .. } =>
        return some { formula, kind, target }
      | _ => return none
    | _ => return none

def resolveLoad (follow : Slicer.FollowFor StrideState) (u : Placed) (reg : Register) :
    M Unit := do
  let base? := Slicer.loadBase? task.bases u.op
  let spilled? ←
    match base? with
    | some base => if task.settings.followSpills then spilledValue? follow u base else pure none
    | none => pure none
  match spilled? with
  | some v =>
    WalkM.tell (.spilledValue u.op.pc v.formula)
    modifyProgress u.op.site fun pr =>
      { pr with
        formula := some (v.formula.markLoad u.op.site)
        kind := v.kind
        target := v.target
        reuse := true }
  | none =>
    let f :=
      match base?.bind Formula.constantValue? with
      | some c => Formula.reference u.op.site c.value
      | none => Formula.load u.op.site reg
    modifyProgress u.op.site fun pr =>
      { pr with formula := some (f.markLoad u.op.site), kind := .invariant, reuse := true }

def start (p : Position) (reg : Register) : M Unit := do
  let block ← WalkM.require (task.graph.block? p.block)
  WalkM.modifyClient fun st =>
    { st with startBackEdges := st.backEdges, startRank := st.pathRank p.block }
  match block.ops[p.before]? with
  | some u => modifyProgress u.site fun pr => { pr with tracked := some reg }
  | none => pure ()

/-- The formula that the micro-op already has can be used again: it is no open sum, or an open sum
of this slice whose cycle start is still pending. -/
def reusable (st : StrideState) (pr : Progress) : Bool :=
  pr.formula.isSome &&
    (pr.kind ≠ .partialSum ||
      (pr.slice = st.session.slices && st.targetPending pr.target))

def readsSameTwice (u : MicroOp) : Bool :=
  match u.sources with
  | .register a :: .register b :: _ => a = b
  | _ => false

def outsideWindow (u : Placed) : M Bool := do
  let w ← get
  return w.client.outsideWindow (w.client.pathRank u.block) (u.op.pc < w.bounds.start)

def enterFresh (follow : Slicer.FollowFor StrideState) (u : Placed) (reg : Register) :
    M Bool := do
  match ← WalkM.classify u.op with
  | .easy | .impossible => return false
  | .normal =>
    if u.op.operation = .invalid then
      WalkM.tell (.unmodelledOperation u.op.pc)
      return false
    if (u.op.operation = .xor ∨ u.op.operation = .sub) ∧ readsSameTwice u.op then
      WalkM.tell (.identicalRegisters u.op.pc)
      modifyProgress u.op.site fun pr =>
        { pr with formula := some .zero, kind := .invariant, target := 0, reuse := true }
      return false
    return true
  | .hard =>
    resolveLoad task follow u reg
    return false

/-- Enter a micro-op. One that is being computed already closes a value cycle and is not entered
again. -/
def enterOp (follow : Slicer.FollowFor StrideState) (u : Placed) (reg : Register) : M Bool := do
  if ← outsideWindow u then return false
  let st ← WalkM.client
  let pr := st.progressAt u.op.site
  if 0 < pr.loopCount then return false
  let again := reusable st pr
  WalkM.modifyClient fun st =>
    { st with session.visits := st.session.visits + 1 }.modifyProgress u.op.site fun pr =>
      { pr with
        loopCount := st.backEdges + 1
        visit := st.session.visits + 1
        reuse := again
        formula := if again then pr.formula else none }
  if again then return false
  enterFresh task follow u reg

def seedCycle (u : Placed) (reg : Register) : M Unit := do
  let st ← WalkM.client
  let pr := st.progressAt u.op.site
  modifyProgress u.op.site fun pr =>
    { pr with
      formula := some .zero
      kind := .partialSum
      slice := st.session.slices
      target := pr.visit }
  WalkM.tell (.valueCycle u.op.site (st.backEdges + 1 - pr.loopCount) pr.tracked)
  push reg (.definition u.op.site pr.visit)
  WalkM.modifyClient fun st =>
    { st with cycles := StrideState.insertCycle ⟨pr.visit, u.op.site⟩ st.cycles }
  if !(u.op.isLoad || pr.tracked.any u.op.reads) then
    WalkM.report task.settings.strict (.cycleWithoutTrackedRegister u.op.site)

def definitionValue (u : MicroOp) (reg : Register) : M StrideValue := do
  match ← WalkM.classify u with
  | .easy => easyValue task u reg
  | .normal => normalValue task u reg
  | .hard => giveUp task (.missingLoadValue u.site) (.load u.site reg)
  | .impossible => return { formula := (Formula.register u.site reg).markIndirect }

/-- Record the value of a definition and leave it pending. At the start of a cycle the value is a
finished stride once it depends on nothing but itself. -/
def settleDefinition (u : Placed) (reg : Register) (closing : Bool) (value : StrideValue) :
    M Unit := do
  let formula ←
    if value.formula.overflow then do
      WalkM.tell (.strideDefinitionOverflow u.op.site reg)
      pure (Formula.register u.op.site reg).markIrregular
    else pure value.formula
  let st ← WalkM.client
  let pr := st.progressAt u.op.site
  let closed := closing && value.target = pr.visit
  let kind := if closed then .stride else if closing then pr.kind else value.kind
  let target := if closed then 0 else value.target
  WalkM.modifyClient fun st =>
    { st with
      cycles := if closing then st.cycles.dropWhile (·.site = u.op.site) else st.cycles
    }.modifyProgress u.op.site fun pr =>
      { pr with
        formula := some formula
        slice := st.session.slices
        kind
        target
        loopCount := 0 }
  WalkM.tell (.strideDefinition u.op.site reg formula kind target)
  push reg (.definition u.op.site target)
  if task.settings.showValues then
    WalkM.tellAll ((← WalkM.client).values.events .source)

def finishOp (u : Placed) (reg : Register) : M Unit := do
  let st ← WalkM.client
  let pr := st.progressAt u.op.site
  let closing := st.atCycleStart u.op.site
  if closing && u.op.isLoad then
    settleDefinition task u reg closing ⟨pr.formula.getD .zero, pr.kind, pr.target⟩
  else if !closing && pr.formula.isSome && pr.reuse then
    modifyProgress u.op.site fun pr => { pr with loopCount := 0 }
    push reg (.definition u.op.site pr.target)
  else
    if !closing then modifyProgress u.op.site fun pr => { pr with formula := none }
    let value ← definitionValue task u.op reg
    settleDefinition task u reg closing value

def leaveOp (u : Placed) (reg : Register) : M Unit := do
  if ← outsideWindow u then
    modifyProgress u.op.site fun pr => { pr with loopCount := 0 }
    push reg .outside
    WalkM.report task.settings.strict (.outsideIterationWindow u.op.site)
  else
    let st ← WalkM.client
    let pr := st.progressAt u.op.site
    if 0 < pr.loopCount ∧ pr.loopCount < st.backEdges + 1 then seedCycle task u reg
    else finishOp task u reg

/-- Only edges of the path are followed; back edges of the loop are counted. -/
def enterEdge (e : Nat) : M Bool := do
  let _ ← WalkM.require (task.graph.edge? e)
  if (← WalkM.client).path.any (·.takesEdge task.graph e) then
    if task.graph.isLoopBackEdge task.marker e then
      WalkM.modifyClient fun st => { st with backEdges := st.backEdges + 1 }
    return true
  return false

def leaveEdge (e : Nat) : M Unit := do
  if task.graph.isLoopBackEdge task.marker e then
    WalkM.modifyClient fun st => { st with backEdges := st.backEdges - 1 }

/-- A walk ends where the iteration does; the value is then from outside of it. -/
def enterBlock (b : Nat) (reg : Register) : M Bool := do
  let block ← WalkM.require (task.graph.block? b)
  let w ← get
  if w.client.outsideWindow (w.client.pathRank b) (block.start ≤ w.bounds.start) then
    push reg .outside
    return false
  return true

/-- A stored constant is kept at the store, which has no value of its own. -/
def fixedValue (reg : Register) (u : MicroOp) (v : Int) : M Unit := do
  if u.isStore then
    push reg (.definition u.site 0)
    modifyProgress u.site fun pr =>
      { pr with formula := some (.constant v), kind := .invariant, target := 0 }

def slicer : Slicer StrideState where
  strict := task.settings.strict
  bases := fun _ => task.bases
  start := start task
  enterOp := enterOp task
  leaveOp := leaveOp task
  enterEdge e _ := enterEdge task e
  leaveEdge e _ := leaveEdge task e
  enterBlock := enterBlock task
  leaveBlock _ reg := push reg .outside
  fixedValue := fixedValue

def slice : Position → Register → Bounds → M Unit :=
  (slicer task).slice task.graph task.settings.depth

def ensurePath (b : Nat) : M Unit := do
  if (← WalkM.client).path.any (·.contains b) then return
  WalkM.modifyClient fun st => { st with path := none }
  let _ ← WalkM.require (task.graph.block? b)
  let found := CyclicPath.find task.graph b task.marker
  WalkM.tellAll (CyclicPath.events task.settings.showPaths task.graph b task.marker found)
  match found with
  | .error f => WalkM.fail f
  | .ok path => WalkM.modifyClient fun st => { st with path := some path }

def startSlice (p : Position) (reg : Register) (bounds : Bounds) : M Unit := do
  let cycles := (← WalkM.client).cycles
  if !cycles.isEmpty then WalkM.tell (.leftoverCycles cycles.length)
  WalkM.modifyClient fun st =>
    { st with cycles := [], session := ⟨0, st.session.slices + 1⟩ }
  ensurePath task p.block
  slice task p reg bounds

def registerStride (reg : Register) : M Formula := do
  match ← claim reg with
  | none =>
    WalkM.tell (.unclaimedRegister reg)
    return .zero
  | some source =>
    let st ← WalkM.client
    match source with
    | .definition site _ =>
      if (st.progress.get? site).any (·.kind = .partialSum) then
        WalkM.tell (.openCycle site.pc reg)
    | .outside => pure ()
    return st.strideOf source

/-- Add up the strides of the registers of an address. A stride that overflows the sum is replaced
by an irregular unknown. -/
def strideTerms (u : Placed) : List (TermKey × Term) → Formula → M Formula
  | [], sum => return sum
  | (.register _ reg, t) :: rest, sum => do
    if (u.op.hardwired? reg).isSome then strideTerms u rest sum
    else
      clear
      startSlice task ⟨u.block, u.index⟩ reg ⟨u.op.pc, 0⟩
      let stride ← registerStride reg
      let sum' := sum + stride.scale t.coeff
      if sum'.overflow then
        WalkM.tell (.strideOverflow u.op.pc reg)
        strideTerms u rest (sum + (Formula.register u.op.site reg).markIrregular)
      else strideTerms u rest sum'
  | _ :: rest, sum => strideTerms u rest sum

def operandStride (b index : Nat) (opidx : Int) : M Formula := do
  let block ← WalkM.require (task.graph.block? b)
  let op ← WalkM.require block.ops[index]?
  match op.memoryOperands.find? (·.opidx = opidx) with
  | none => WalkM.fail (.missingMemoryOperand op.site)
  | some m =>
    let sum ← strideTerms task ⟨b, index, op⟩ (op.addressFormula m).terms.entries .zero
    WalkM.tell (.strideFormula op.pc m task.marker sum)
    return sum

end AddressFormulas.Stride
