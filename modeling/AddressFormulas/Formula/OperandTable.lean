import AddressFormulas.Failure
import AddressFormulas.Formula.Basic

namespace AddressFormulas

structure OperandFormulas where
  base : Option Formula := none
  strides : List Formula := []
  deriving DecidableEq, Repr

def OperandFormulas.recordStride (fs : OperandFormulas) (operand : OperandId) (level : Nat)
    (stride : Formula) : Except Failure OperandFormulas :=
  if fs.strides.length = level then .ok { fs with strides := fs.strides ++ [stride] }
  else .error (.strideCountMismatch operand level fs.strides.length)

abbrev OperandTable := Table OperandId OperandFormulas

namespace OperandTable

def base? (t : OperandTable) (operand : OperandId) : Option Formula :=
  (t.get? operand).bind OperandFormulas.base

def strides (t : OperandTable) (operand : OperandId) : List Formula :=
  ((t.get? operand).map OperandFormulas.strides).getD []

def touch (t : OperandTable) (operand : OperandId) : OperandTable :=
  Table.update t operand {} id

def setBase (t : OperandTable) (operand : OperandId) (base : Formula) : OperandTable :=
  Table.update t operand {} fun fs => { fs with base := some base }

def recordStride (t : OperandTable) (operand : OperandId) (level : Nat) (stride : Formula) :
    Except Failure OperandTable :=
  ((Table.getD t operand {}).recordStride operand level stride).map (Table.insert t operand)

end OperandTable

end AddressFormulas
