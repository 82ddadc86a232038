import AddressFormulas.Base.Fold
import AddressFormulas.Settings
import AddressFormulas.Walk.Engine

/-!
Base addresses of memory operands. The registers of an address are sliced backward, and the
arithmetic met on the way is folded into one formula per register. What cannot be expressed by
earlier values stays an unknown: a load that matches no store, the result of a call, a register at
the entry.
-/

namespace AddressFormulas

structure BaseState where
  values : Pending Formula := {}
  definitions : Table Site Formula := {}
  bases : OperandTable := {}
  deriving DecidableEq, Repr

namespace Base

abbrev M := WalkM BaseState

def push (reg : Register) (f : Formula) : M Unit :=
  WalkM.modifyClient fun st => { st with values := st.values.push reg f }

def pushSite (site : Site) (f : Formula) : M Unit :=
  WalkM.modifyClient fun st => { st with values := st.values.pushSite site f }

def claim (reg : Register) : M (Option Formula) :=
  WalkM.claim BaseState.values (fun values st => { st with values }) reg

def claimSite (site : Site) : M (Option Formula) := do
  match (← WalkM.client).values.claimSite? site with
  | none => return none
  | some c =>
    WalkM.modifyClient fun st => { st with values := c.rest }
    return some c.value

/-- Drop all pending values. Computed definitions are kept. -/
def clear : M Unit := WalkM.modifyClient fun st => { st with values := {} }

def operandValue (u : MicroOp) (i : Nat) : M (Option Formula) :=
  match u.sources[i]? with
  | some (.immediate v) => return some (.constant v)
  | some o =>
    match u.operandRegister? o with
    | some r => claim r.canonical
    | none => return none
  | none => return none

variable (settings : Settings)

def giveUp (failure : Failure) (f : Formula) : M Formula := do
  WalkM.report settings.strict failure
  return f

def easyValue (u : MicroOp) (reg : Register) : M Formula :=
  let unknown := Formula.register u.site reg
  if u.kind ≠ .move ∧ u.kind ≠ .copy then
    giveUp settings (.nonMoveWithoutSources u.site) unknown
  else
    match u.immediates with
    | [v] => return .constant v
    | vs => giveUp settings (.unexpectedOperandCount u.site vs.length) unknown

def leaTerms : List (TermKey × Term) → Formula → M Formula
  | [], sum => return sum
  | (key, t) :: rest, sum => do
    let claimed ←
      match key with
      | .register _ reg => claim reg
      | _ => pure none
    match claimed with
    | some f => leaTerms rest (sum + f.scale t.coeff)
    | none => leaTerms rest (sum.addTerm key t.coeff t.origin)

def combine (u : MicroOp) (unknown f₁ f₂ : Formula) : M Formula := do
  match u.operation with
  | .add => return f₁ + f₂
  | .sub =>
    if 1 < u.valueSources ∧ f₁.sameTerms f₂ then WalkM.tell (.selfSubtraction u.pc)
    return f₁ - f₂
  | .mov => return f₁
  | .not =>
    match f₁.constantValue? with
    | some c => return .constant (Word.complement c.value)
    | none => return unknown
  | .xor =>
    if f₁.sameTerms f₂ then
      WalkM.tell (.selfXor u.pc)
      return .zero
    return (Operation.xor.onFormulas? f₁ f₂).getD unknown
  | op => return (op.onFormulas? f₁ f₂).getD unknown

def threeSourceValue (u : MicroOp) (unknown f₁ : Formula) : M Formula := do
  let filling? ← operandValue u 1
  let amount? ← operandValue u 2
  match filling?, amount? with
  | some filling, some amount =>
    if u.kind = .div then return unknown
    if u.operation ≠ .sll then
      return ← giveUp settings (.unexpectedOperandCount u.site 3) unknown
    return (doubleShift? u.width f₁ filling amount).getD unknown
  | _, _ => return unknown

def twoSourceValue (u : MicroOp) (unknown f₁ : Formula) : M Formula := do
  if 1 < u.valueSources then
    match ← operandValue u 1 with
    | some f₂ => combine u unknown f₁ f₂
    | none => giveUp settings (.missingOperand u.site 1) unknown
  else if u.operation = .mov ∨ u.operation = .not then combine u unknown f₁ .zero
  else giveUp settings (.unexpectedOperandCount u.site u.valueSources) unknown

def normalValue (u : MicroOp) (reg : Register) : M Formula := do
  let unknown := Formula.register u.site reg
  let count := u.valueSources
  if count = 0 ∨ 3 < count ∨ (count = 3 ∧ !u.allowsThreeSources) then
    return ← giveUp settings (.unexpectedOperandCount u.site count) unknown
  if u.kind = .lea then
    match u.sources.head? with
    | some (.memory m) =>
      if count = 1 then return ← leaTerms (u.addressFormula m).terms.entries .zero
      return ← giveUp settings (.unexpectedOperandCount u.site count) unknown
    | _ => return ← giveUp settings (.unexpectedOperandCount u.site count) unknown
  if u.operation = .invalid then return unknown
  match ← operandValue u 0 with
  | none => giveUp settings (.missingOperand u.site 0) unknown
  | some f₁ =>
    if count = 3 then threeSourceValue settings u unknown f₁
    else twoSourceValue settings u unknown f₁

variable (g : Graph)

/-- The value of a call: the block behind it may be the surrogate of the callee. -/
def callValue (u : Placed) : M Formula := do
  let block ← WalkM.require (g.block? u.block)
  let sink? := (block.outgoing.head?.bind g.edge?).bind fun e => g.block? e.sink
  let surrogate? := sink?.bind fun b =>
    match b.kind with
    | .surrogate target => some target
    | .code => none
  return .call u.op.site ((surrogate? <|> u.op.target).getD 0)

def resolveLoad (follow : Slicer.FollowFor BaseState) (u : Placed) (reg : Register) : M Unit := do
  let load := Formula.load u.op.site reg
  match Slicer.loadBase? (← WalkM.client).bases u.op with
  | none =>
    WalkM.tell (.unusableAddress u.op.pc)
    pushSite u.op.site load
  | some base =>
    let spilled ←
      if settings.followSpills then do
        modify fun w => { w with bounds.start := u.op.pc }
        follow ⟨u.block, u.index⟩ base
      else pure none
    match spilled with
    | some saved =>
      match ← claim saved with
      | some f =>
        if f.definedBefore (← get).bounds.stop then pushSite u.op.site load
        else
          WalkM.tell (.spilledValue u.op.pc f)
          pushSite u.op.site f
      | none => pushSite u.op.site load
    | none =>
      match base.constantValue? with
      | some c => pushSite u.op.site (.reference u.op.site c.value)
      | none => pushSite u.op.site load

def enterOp (follow : Slicer.FollowFor BaseState) (u : Placed) (reg : Register) : M Bool := do
  let w ← get
  if u.op.pc < w.bounds.stop ∨ w.client.definitions.contains u.op.site then return false
  match ← WalkM.classify u.op with
  | .easy | .impossible => return false
  | .normal =>
    if u.op.operation = .invalid then
      WalkM.tell (.unmodelledOperation u.op.pc)
      return false
    return true
  | .hard =>
    resolveLoad settings follow u reg
    return false

def definitionValue (u : Placed) (reg : Register) : M Formula := do
  match ← WalkM.classify u.op with
  | .easy => easyValue settings u.op reg
  | .normal => normalValue settings u.op reg
  | .hard =>
    match ← claimSite u.op.site with
    | some f => return f
    | none => giveUp settings (.missingLoadValue u.op.site) (.load u.op.site reg)
  | .impossible => if u.op.conditional then return .register u.op.site reg else callValue g u

def leaveOp (u : Placed) (reg : Register) : M Unit := do
  let w ← get
  if u.op.pc < w.bounds.stop then
    push reg (.register ⟨w.bounds.stop, -1⟩ reg)
  else
    match w.client.definitions.get? u.op.site with
    | some f => push reg f
    | none =>
      let computed ← definitionValue settings g u reg
      let f ←
        if computed.overflow then do
          WalkM.tell (.definitionOverflow u.op.site reg)
          pure (.register u.op.site reg)
        else pure computed
      WalkM.tell (.definitionValue u.op.site reg f)
      WalkM.modifyClient fun st => { st with definitions := st.definitions.insert u.op.site f }
      push reg f
      if settings.showValues then
        WalkM.tellAll ((← WalkM.client).values.events .formula)

/-- Forward edges from blocks that reach into the addresses of interest are followed. -/
def enterEdge (e : Nat) : M Bool := do
  let edge ← WalkM.require (g.edge? e)
  let source ← WalkM.require (g.block? edge.source)
  return !edge.isBack && (← get).bounds.stop < source.stop

/-- A walk ends at the lower bound and at the entry, where the register is an unknown. -/
def enterBlock (b : Nat) (reg : Register) : M Bool := do
  let block ← WalkM.require (g.block? b)
  let stop := (← get).bounds.stop
  if block.start ≤ stop then
    push reg (.register ⟨stop, 0⟩ reg)
    return false
  if block.isEntry then
    push reg (.register ⟨block.start, 0⟩ reg)
    return false
  return true

def leaveBlock (b : Nat) (reg : Register) : M Unit := do
  let block ← WalkM.require (g.block? b)
  push reg (.register ⟨block.start, 0⟩ reg)

def slicer : Slicer BaseState where
  strict := settings.strict
  bases := BaseState.bases
  enterOp := enterOp settings
  leaveOp := leaveOp settings g
  enterEdge e _ := enterEdge g e
  enterBlock := enterBlock g
  leaveBlock := leaveBlock g
  fixedValue reg _ v := push reg (.constant v)

def slice : Position → Register → Bounds → M Unit := (slicer settings g).slice g settings.depth

def sliceNext : Nat → Register → M Unit := (slicer settings g).sliceNext g settings.depth

def follow : Position → Formula → M (Option Register) := (slicer settings g).follow g settings.depth

def addressRegister (u : Placed) (reg : Register) : M (Option Formula) := do
  match u.op.hardwired? reg with
  | some v => return some (.constant v)
  | none =>
    clear
    slice settings g ⟨u.block, u.index⟩ reg ⟨u.op.pc, 0⟩
    claim reg

/-- Add up an address. A register without a value, or whose value overflows the sum, stays an
unknown. -/
def addressTerms (u : Placed) : List (TermKey × Term) → Formula → M Formula
  | [], sum => return sum
  | (key, t) :: rest, sum => do
    let asUnknown := sum.addTerm key t.coeff t.origin
    match key with
    | .register _ reg =>
      match ← addressRegister settings g u reg with
      | none => addressTerms u rest asUnknown
      | some f =>
        let sum' := sum + f.scale t.coeff
        if sum'.overflow then
          WalkM.tell (.addressOverflow u.op.pc reg)
          addressTerms u rest asUnknown
        else addressTerms u rest sum'
    | _ => addressTerms u rest asUnknown

def address (b index : Nat) (opidx : Int) : M Formula := do
  let block ← WalkM.require (g.block? b)
  let op ← WalkM.require block.ops[index]?
  match op.memoryOperands.find? (·.opidx = opidx) with
  | none => WalkM.fail (.missingMemoryOperand op.site)
  | some m =>
    let sum ← addressTerms settings g ⟨b, index, op⟩ (op.addressFormula m).terms.entries .zero
    WalkM.tell (.addressFormula op.pc m sum)
    return sum

end Base

end AddressFormulas
