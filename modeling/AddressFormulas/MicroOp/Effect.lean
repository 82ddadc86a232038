import AddressFormulas.MicroOp.Basic

namespace AddressFormulas

inductive Effect where
  /-- No register is read. -/
  | easy
  /-- Computed from registers. -/
  | normal
  /-- Loaded from memory. -/
  | hard
  /-- Returned by a call. -/
  | impossible
  deriving DecidableEq, Repr

namespace MicroOp

/-- The sources on which a value depends: pseudo registers, flags and status do not count. -/
def valueRegisters (u : MicroOp) : List Register :=
  (u.sourceRegisters.map Register.canonical).filter fun r =>
    !(r.isAbsent || r.isPseudo || r.isFlagOrStatus)

def hasFixedEffect (u : MicroOp) : Bool := (u.isBranch && u.isCall) || u.isLoad

def effect (u : MicroOp) : Effect :=
  if u.isBranch && u.isCall then .impossible
  else if u.isLoad then .hard
  else if u.valueRegisters.isEmpty then .easy
  else .normal

def stackSources (u : MicroOp) : List Register :=
  if u.hasFixedEffect then [] else u.valueRegisters.filter Register.isStack

end MicroOp

end AddressFormulas
