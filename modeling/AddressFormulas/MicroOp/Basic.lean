import AddressFormulas.Formula.Basic

namespace AddressFormulas

inductive OpKind where
  | move
  | copy
  | lea
  | load
  | store
  | branch
  | div
  | alu
  | other
  deriving DecidableEq, Repr

inductive Operation where
  | add
  | sub
  | mov
  | not
  | and
  | or
  | xor
  | andn
  | orn
  | xnor
  | mul
  | div
  | sll
  | srl
  | sra
  | invalid
  deriving DecidableEq, Repr

structure MemoryOperand where
  opidx : Int := 0
  base : Option Register := none
  index : Option Register := none
  scale : Int := 1
  disp : Int := 0
  deriving DecidableEq, Repr

namespace MemoryOperand

def baseChars (m : MemoryOperand) : List Char :=
  match m.base with
  | some r => r.text.toList
  | none => []

def indexChars (m : MemoryOperand) : List Char :=
  match m.index with
  | some r => (if m.base.isSome then ['+'] else []) ++
      (r.text.toList ++ '*' :: Numeral.decimalChars m.scale)
  | none => []

def dispChars (m : MemoryOperand) : List Char :=
  if m.base.isNone && m.index.isNone then Numeral.decimalChars m.disp
  else if m.disp = 0 then []
  else if 0 ≤ m.disp then '+' :: Numeral.decimalChars m.disp
  else Numeral.decimalChars m.disp

def text (m : MemoryOperand) : String :=
  String.ofList ('[' :: (m.baseChars ++ m.indexChars ++ m.dispChars) ++
    (']' :: '@' :: Numeral.decimalChars m.opidx))

end MemoryOperand

inductive Operand where
  | register (r : Register)
  | temporary (index : Nat)
  | immediate (v : Int)
  | memory (m : MemoryOperand)
  deriving DecidableEq, Repr

namespace Operand

def memory? : Operand → Option MemoryOperand
  | memory m => some m
  | _ => none

def immediate? : Operand → Option Int
  | immediate v => some v
  | _ => none

def isFlagOrStatus : Operand → Bool
  | register r => r.isFlagOrStatus
  | _ => false

end Operand

structure MicroOp where
  pc : Nat
  idx : Int := 0
  length : Nat := 4
  kind : OpKind
  operation : Operation
  width : Nat := 64
  sources : List Operand := []
  destinations : List Operand := []
  isCall : Bool := false
  conditional : Bool := false
  target : Option Nat := none
  deriving DecidableEq, Repr

namespace MicroOp

def site (u : MicroOp) : Site := ⟨u.pc, u.idx⟩

def nextPc (u : MicroOp) : Nat := u.pc + u.length

def isLoad (u : MicroOp) : Bool := u.kind = .load

def isStore (u : MicroOp) : Bool := u.kind = .store

def isBranch (u : MicroOp) : Bool := u.kind = .branch

/-- The register that an operand names; temporaries have the width of the operation. -/
def operandRegister? (u : MicroOp) : Operand → Option Register
  | .register r => some r
  | .temporary i => some (.temporary i u.width)
  | .immediate _ | .memory _ => none

def writes? (u : MicroOp) (reg : Register) : Option Register :=
  ((u.destinations.filterMap u.operandRegister?).map Register.canonical).find? (·.overlaps reg)

def sourceRegisters (u : MicroOp) : List Register :=
  u.sources.flatMap fun
    | .memory m => m.base.toList ++ m.index.toList
    | o => (u.operandRegister? o).toList

def reads (u : MicroOp) (reg : Register) : Bool := u.sourceRegisters.any (·.overlaps reg)

/-- The register through which the micro-op defines `reg`. A conditional move defines nothing. -/
def defines? (u : MicroOp) (reg : Register) : Option Register :=
  if u.conditional then none else u.writes? reg

def hardwired? (u : MicroOp) (reg : Register) : Option Int := reg.hardwired? u.nextPc

def immediates (u : MicroOp) : List Int := u.sources.filterMap Operand.immediate?

def memorySource? (u : MicroOp) : Option MemoryOperand := u.sources.findSome? Operand.memory?

def memoryDestination? (u : MicroOp) : Option MemoryOperand :=
  u.destinations.findSome? Operand.memory?

def memoryOperands (u : MicroOp) : List MemoryOperand :=
  (u.sources ++ u.destinations).filterMap Operand.memory?

/-- The number of sources without flags at the end, which contribute nothing to a value. -/
def valueSources (u : MicroOp) : Nat :=
  (u.sources.reverse.dropWhile Operand.isFlagOrStatus).length

def allowsThreeSources (u : MicroOp) : Bool :=
  u.kind = .div || u.operation = .invalid || u.operation = .sll

def addressFormula (u : MicroOp) (m : MemoryOperand) : Formula :=
  let add (f : Formula) (reg : Option Register) (scale : Int) : Formula :=
    match reg with
    | some r => f.addTerm (.register u.site r.canonical) (.ofInt scale) (some u.site)
    | none => f
  add (add (.constant m.disp) m.base 1) m.index m.scale

end MicroOp

end AddressFormulas
