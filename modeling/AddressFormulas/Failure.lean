import AddressFormulas.Formula.Term

namespace AddressFormulas

structure OperandId where
  pc : Nat
  opidx : Int
  deriving DecidableEq, Repr

instance : Ord OperandId where
  compare := compareLex (compareOn OperandId.pc) (compareOn OperandId.opidx)

inductive Failure where
  | unexpectedOperandCount (site : Site) (count : Nat)
  | missingOperand (site : Site) (operand : Nat)
  | unexpectedRegisterClass (site : Site) (reg : String)
  | nonMoveWithoutSources (site : Site)
  | missingLoadValue (site : Site)
  | cycleWithoutTrackedRegister (site : Site)
  | outsideIterationWindow (site : Site)
  | badLoopParent (marker parent : Nat)
  | noCyclicPath (block marker : Nat)
  | missingMemoryOperand (site : Site)
  | missingBaseFormula (operand : OperandId)
  | strideCountMismatch (operand : OperandId) (expected found : Nat)
  deriving DecidableEq, Repr

namespace Failure

def isCoverageGap : Failure → Bool
  | noCyclicPath .. | badLoopParent .. | missingMemoryOperand .. | missingBaseFormula ..
  | strideCountMismatch .. => false
  | _ => true

def placeText (s : Site) : String :=
  Numeral.decimal s.idx ++ " at " ++ Numeral.hex s.pc

def operandText (o : OperandId) : String :=
  Numeral.decimal o.opidx ++ " at " ++ Numeral.hex o.pc

def message : Failure → String
  | unexpectedOperandCount s count => "Micro-op " ++ placeText s ++ " has " ++
      Numeral.natural count ++ " source operands, which is not handled for its opcode"
  | missingOperand s operand => "Micro-op " ++ placeText s ++
      " has no resolved value for source operand " ++ Numeral.natural operand
  | unexpectedRegisterClass s reg => "Micro-op " ++ placeText s ++ " uses register " ++ reg ++
      ", whose class is not modeled"
  | nonMoveWithoutSources s => "Micro-op " ++ placeText s ++
      " defines a value from no registers but is not a move"
  | missingLoadValue s => "Load micro-op " ++ placeText s ++ " has no pending value"
  | cycleWithoutTrackedRegister s => "Micro-op " ++ placeText s ++
      " closes a value cycle without reading the tracked register"
  | outsideIterationWindow s => "Micro-op " ++ placeText s ++
      " was reached outside of the single-iteration window"
  | badLoopParent marker parent => "Loop " ++ Numeral.natural marker ++ " has parent " ++
      Numeral.natural parent ++ ", but enclosing loops must have smaller markers"
  | noCyclicPath block marker => "No cyclic path found through block " ++ Numeral.natural block ++
      " for loop marker " ++ Numeral.natural marker
  | missingMemoryOperand s => "Micro-op " ++ placeText s ++ " has no memory operand"
  | missingBaseFormula o => "Base address of memory operand " ++ operandText o ++
      " has not been computed yet"
  | strideCountMismatch o expected found => "Memory operand " ++ operandText o ++ " already has " ++
      Numeral.natural found ++ " strides recorded, expected " ++ Numeral.natural expected

end Failure

end AddressFormulas
