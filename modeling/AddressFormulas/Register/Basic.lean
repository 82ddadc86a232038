import AddressFormulas.Register.Names
import AddressFormulas.Text.Numeral
import AddressFormulas.Word

namespace AddressFormulas

inductive RegisterName where
  | absent
  | listed (line : Fin 89)
  | temporary (index : Nat)
  deriving DecidableEq, Repr

namespace RegisterName

def cls : RegisterName → RegisterClass
  | absent => .none
  | listed i => (NameTable.entry i).cls
  | temporary _ => .temp

def index : RegisterName → Nat
  | absent => 0
  | listed i => i.val
  | temporary n => n

def parent : RegisterName → RegisterName
  | listed i => listed (NameTable.entry i).parent
  | name => name

def text : RegisterName → String
  | absent => "<none>"
  | listed i => (NameTable.entry i).text
  | temporary n => "t" ++ Numeral.natural n

end RegisterName

/-- The bits from `lsb` to `msb`, both included, of the named register. -/
structure Register where
  name : RegisterName
  lsb : Nat
  msb : Nat
  deriving DecidableEq, Repr

namespace Register

def absent : Register := ⟨.absent, 0, 0⟩

def temporary (index width : Nat) : Register :=
  ⟨.temporary index, 0, if width = 0 ∨ 64 < width then 63 else width - 1⟩

def ofName? (text : String) : Option Register :=
  (NameTable.find? text).map fun i => ⟨.listed i, (NameTable.entry i).lsb, (NameTable.entry i).msb⟩

def cls (r : Register) : RegisterClass := r.name.cls

def canonical (r : Register) : Register := { r with name := r.name.parent }

def isAbsent (r : Register) : Bool := r.cls = .none

def isPseudo (r : Register) : Bool := r.cls = .pseudo

def isFlagOrStatus (r : Register) : Bool := r.cls = .flag || r.cls = .status

def isStack (r : Register) : Bool := r.cls = .stackOperation || r.cls = .stackReg

/-- The value of a register that is fixed by where it is read: before an instruction at `nextPc`. -/
def hardwired? (r : Register) (nextPc : Nat) : Option Int :=
  match r.cls with
  | .instructionPointer => some (Word.wrap nextPc)
  | .zero => some 0
  | _ => none

def width (r : Register) : Nat := r.msb + 1 - r.lsb

def overlaps (r s : Register) : Bool :=
  !r.isAbsent && !s.isAbsent && r.name.parent = s.name.parent && r.lsb ≤ s.msb && s.lsb ≤ r.msb

def includesRange (r s : Register) : Bool := r.lsb ≤ s.lsb && s.msb ≤ r.msb

instance : Ord Register where
  compare := compareLex (compareOn fun r => r.cls.rank) <|
    compareLex (compareOn fun r => r.name.index) <|
    compareLex (compareOn Register.lsb) (compareOn Register.msb)

def isNatural (r : Register) : Bool :=
  match r.name with
  | .listed i => (NameTable.entry i).lsb = r.lsb && (NameTable.entry i).msb = r.msb
  | _ => true

def text (r : Register) : String :=
  if r.isNatural then r.name.text
  else r.name.text ++ "[" ++ Numeral.natural r.msb ++ ":" ++ Numeral.natural r.lsb ++ "]"

end Register

end AddressFormulas
