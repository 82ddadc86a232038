import AddressFormulas.Walk.Basic

/-!
The engine of backward walks. `walk` looks for the last definition of a register before a place, has
the sources of the definition sliced in turn, and goes on into the predecessors of a block without a
definition. `follow` looks for the last store to an address and has the stored value sliced. Both
call each other at smaller depths only; at depth zero they are exhausted.
-/

namespace AddressFormulas

namespace Slicer

variable {σ : Type} (s : Slicer σ) (g : Graph)

abbrev WalkFor (σ : Type) := Position → Register → Bounds → WalkM σ Unit

abbrev FollowFor (σ : Type) := Position → Formula → WalkM σ (Option Register)

def setBounds (bounds : Bounds) : WalkM σ Unit := do
  modify fun w => { w with bounds }
  s.bound bounds

def sliceWith (walk : WalkFor σ) (p : Position) (reg : Register) (bounds : Bounds) :
    WalkM σ Unit := do
  s.start p reg
  walk p reg bounds

/-- Slice one source of a definition. Pseudo registers, flags and status are left aside. -/
def sliceSource (walk : WalkFor σ) (u : Placed) (source : Register) : WalkM σ Unit := do
  let reg := source.canonical
  if reg.isAbsent || reg.isPseudo || reg.isFlagOrStatus then return
  match u.op.hardwired? reg with
  | some v => s.fixedValue reg u.op v
  | none =>
    if reg.isStack then
      WalkM.report s.strict (.unexpectedRegisterClass u.op.site reg.text)
    s.sliceWith walk ⟨u.block, u.index⟩ reg ⟨u.op.pc, 0⟩

def sliceSources (walk : WalkFor σ) (u : Placed) : List Register → WalkM σ Unit
  | [] => pure ()
  | source :: rest => do
    s.sliceSource walk u source
    sliceSources walk u rest

def walkEdges (walk : WalkFor σ) (b : Nat) (reg : Register) : List Nat → WalkM σ Unit
  | [] => s.leaveBlock b reg
  | e :: rest => do
    if ← s.enterEdge e reg then
      let edge ← WalkM.require (g.edge? e)
      let source ← WalkM.require (g.block? edge.source)
      walk ⟨edge.source, source.ops.length⟩ reg (← get).bounds
      s.leaveEdge e reg
      if ← s.tryOthers e reg then walkEdges walk b reg rest
    else walkEdges walk b reg rest

def walkNext (walk : WalkFor σ) (b : Nat) (reg : Register) : WalkM σ Unit := do
  if ← s.enterBlock b reg then
    let block ← WalkM.require (g.block? b)
    s.walkEdges g walk b reg (g.incomingByRank block)

def walkStep (walk : WalkFor σ) (follow : FollowFor σ) (p : Position) (reg : Register)
    (bounds : Bounds) : WalkM σ Unit := do
  s.setBounds bounds
  let block ← WalkM.require (g.block? p.block)
  match block.definition? p.before reg with
  | none => s.walkNext g walk p.block reg
  | some (i, op, written) =>
    let u : Placed := ⟨p.block, i, op⟩
    WalkM.tell (.definitionFound op.site written)
    if ← s.enterOp follow u written then s.sliceSources walk u op.sourceRegisters
    s.leaveOp u written

def storedConstant : Nat := 100

/-- Slice the value that a store writes. The answer is the register that carries it. -/
def sliceStored (walk : WalkFor σ) (u : Placed) : WalkM σ (Option Register) := do
  let slice (reg : Register) : WalkM σ (Option Register) := do
    s.sliceWith walk ⟨u.block, u.index⟩ reg ⟨u.op.pc, 0⟩
    return some reg
  let constant (v : Int) : WalkM σ (Option Register) := do
    let carrier := Register.temporary storedConstant u.op.width
    s.fixedValue carrier u.op v
    return some carrier
  match u.op.sources with
  | [.temporary i] => slice (.temporary i u.op.width)
  | [.register r] =>
    match u.op.hardwired? r.canonical with
    | some v => constant v
    | none =>
      if r.canonical.isStack || r.canonical.isPseudo then
        WalkM.report s.strict (.unexpectedRegisterClass u.op.site r.canonical.text)
      slice r.canonical
  | [.immediate v] => constant v
  | [.memory _] =>
    WalkM.report s.strict (.missingOperand u.op.site 0)
    return none
  | sources =>
    WalkM.report s.strict (.unexpectedOperandCount u.op.site sources.length)
    return none

def storesTo (bases : OperandTable) (address : Formula) (u : MicroOp) : Bool :=
  u.isStore &&
    ((u.memoryDestination?.bind fun m => bases.base? ⟨u.pc, m.opidx⟩).any fun base =>
      (address - base).isConstantValue 0)

/-- The base address of a load, if it is known and not the constant zero. -/
def loadBase? (bases : OperandTable) (u : MicroOp) : Option Formula :=
  (u.memorySource?.bind fun m => bases.base? ⟨u.pc, m.opidx⟩).filter fun f => !f.isConstantValue 0

def followEdges (follow : FollowFor σ) (b : Nat) (address : Formula) :
    List Nat → WalkM σ (Option Register)
  | [] => do
    s.leaveBlock b .absent
    return none
  | e :: rest => do
    if ← s.enterEdge e .absent then
      let edge ← WalkM.require (g.edge? e)
      let source ← WalkM.require (g.block? edge.source)
      let found ← follow ⟨edge.source, source.ops.length⟩ address
      s.leaveEdge e .absent
      if found.isSome then return found
      if ← s.tryOthers e .absent then followEdges follow b address rest else return none
    else followEdges follow b address rest

def followStep (walk : WalkFor σ) (follow : FollowFor σ) (p : Position) (address : Formula) :
    WalkM σ (Option Register) := do
  let block ← WalkM.require (g.block? p.block)
  let bases := s.bases (← WalkM.client)
  let store? := lastBefore? block.ops
    (fun u => if storesTo bases address u then some () else none) (min p.before block.ops.length)
  match store? with
  | some (i, op, _) =>
    WalkM.tell (.matchingStore op.pc address)
    s.sliceStored walk ⟨p.block, i, op⟩
  | none =>
    if ← s.enterBlock p.block .absent then
      s.followEdges g follow p.block address block.incoming
    else return none

mutual

def walk : Nat → Position → Register → Bounds → WalkM σ Unit
  | 0, _, _, _ => throw .exhausted
  | n + 1, p, reg, bounds => s.walkStep g (walk n) (follow n) p reg bounds

/-- Look backward from a place for a store to an address, and have the stored value sliced. The
answer is the register that carries it. -/
def follow : Nat → Position → Formula → WalkM σ (Option Register)
  | 0, _, _ => throw .exhausted
  | n + 1, p, address => s.followStep g (walk n) (follow n) p address

end

def slice (depth : Nat) : Position → Register → Bounds → WalkM σ Unit :=
  s.sliceWith (s.walk g depth)

def sliceNext (depth : Nat) : Nat → Register → WalkM σ Unit :=
  s.walkNext g (s.walk g depth)

end Slicer

end AddressFormulas
